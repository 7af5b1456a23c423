import ScCosim.Async.Interface

/-!
# One request at a time

The OS thread waits on a mutex that only `nb_put` unlocks, so the two loops pass one packet
back and forth. `Stage` lists the places that packet can be in; every step moves it from one
place to the next, whatever the order of the steps. What follows is that each reply answers
the request it was made for.
-/
namespace ScCosim.Async

open Kernel

/-! ### The channel in a stage -/

/-- Everything the stages fix about a channel: both queues, the push flag, the pushed event
and the lock of `wait_for_put`. -/
structure AsyncChannel.Content (c : AsyncChannel Ptr) (toSysc fmSysc : List Ptr)
    (flag event locked : Bool) : Prop where
  toSysc : c.mQueueToSysc = toSysc
  fmSysc : c.mQueueFmSysc = fmSysc
  flag : c.mThreadDidPush = flag
  event : c.mSyscPushedEvent = event
  locked : c.mMutexWaitPut = locked

namespace AsyncChannel

variable {c : AsyncChannel Ptr} {up down : List Ptr} {flag event locked : Bool}

theorem Content.push (h : c.Content up down flag event locked) (p : Ptr) :
    (c.push p).Content (p :: up) down true event locked :=
  ⟨by simp [AsyncChannel.push, h.toSysc], h.fmSysc, rfl, h.event, h.locked⟩

theorem Content.nbPut (h : c.Content up down flag event locked) (p : Ptr) :
    (c.nbPut p).Content up (p :: down) flag event false :=
  ⟨h.toSysc, by simp [AsyncChannel.nbPut, h.fmSysc], h.flag, h.event, rfl⟩

theorem Content.waitForPut {d : AsyncChannel Ptr} (h : c.Content up down flag event locked)
    (hd : c.waitForPut = some d) : locked = false ∧ d.Content up down flag event true := by
  simp only [AsyncChannel.waitForPut, h.locked] at hd
  cases locked with
  | true => simp at hd
  | false =>
    -- the lock is taken again, which is all that changes
    simp only [Bool.false_eq_true, if_false, Option.some.injEq] at hd
    subst hd
    exact ⟨rfl, h.toSysc, h.fmSysc, h.flag, h.event, rfl⟩

/-- `nb_get` on a queue of one packet. -/
theorem Content.nbGet {p : Ptr} (h : c.Content [p] down flag event locked) :
    ∃ d, c.nbGet = some (p, d) ∧ d.Content [] down flag event locked := by
  refine ⟨{ c with mQueueToSysc := [], mMutexWaitGet := false }, ?_, rfl, h.fmSysc, h.flag,
    h.event, h.locked⟩
  simp [AsyncChannel.nbGet, h.toSysc]

/-- `nb_pull` on a queue of one packet. -/
theorem Content.nbPull {p : Ptr} (h : c.Content up [p] flag event locked) :
    ∃ d, c.nbPull = some (p, d) ∧ d.Content up [] flag event locked := by
  refine ⟨{ c with mQueueFmSysc := [], mThreadDidPull := true, mSyscDidPut := false,
                   updateRequested := true }, ?_, h.toSysc, rfl, h.flag, h.event, h.locked⟩
  simp [AsyncChannel.nbPull, h.fmSysc]

/-- Without a flagged push the kernel's steps leave the content alone. -/
theorem Content.kernelStep_quiet {s k : Scheduled Ptr} {suspended : Bool}
    (h : s.channel.Content up down false false locked)
    (hk : s.kernelStep suspended = some k) : k.channel.Content up down false false locked := by
  unfold Scheduled.kernelStep at hk
  split at hk
  · split at hk
    · cases hk; exact ⟨h.toSysc, h.fmSysc, h.flag, h.event, h.locked⟩
    · cases hk
  · -- no push is flagged, so the first block does nothing
    cases hk; simpa [handlePush, h.flag] using h
  · cases hk
    unfold handleGet
    split
    · exact ⟨h.toSysc, h.fmSysc, h.flag, h.event, h.locked⟩
    · exact h
  · -- the events are delivered: there was none
    cases hk; exact ⟨h.toSysc, h.fmSysc, h.flag, rfl, h.locked⟩

/-- A flagged push stays flagged until the kernel's first block of `update()` trades the
flag for the event. -/
theorem Content.kernelStep_flagged {s k : Scheduled Ptr} {suspended : Bool}
    (h : s.channel.Content up down true false locked)
    (hk : s.kernelStep suspended = some k) :
    k.channel.Content up down true false locked ∨
      (s.phase = .handlePush ∧ k.phase = .handleGet ∧
        k.channel.Content up down false true locked) := by
  unfold Scheduled.kernelStep at hk
  split at hk
  · split at hk
    · cases hk; exact Or.inl ⟨h.toSysc, h.fmSysc, h.flag, h.event, h.locked⟩
    · cases hk
  · -- the first block of `update()` trades the flag for the event
    next phase =>
    cases hk
    refine Or.inr ⟨phase, rfl, ?_⟩
    simp only [handlePush, h.flag, if_true]
    exact ⟨h.toSysc, h.fmSysc, rfl, rfl, h.locked⟩
  · cases hk
    unfold handleGet
    split
    · exact Or.inl ⟨h.toSysc, h.fmSysc, h.flag, h.event, h.locked⟩
    · exact Or.inl h
  · cases hk; exact Or.inl ⟨h.toSysc, h.fmSysc, h.flag, rfl, h.locked⟩

/-- The event is delivered in the notification phase and kept until then. -/
theorem Content.kernelStep_notified {s k : Scheduled Ptr} {suspended : Bool}
    (h : s.channel.Content up down false true locked)
    (phase : s.phase = .handleGet ∨ s.phase = .notify) (hk : s.kernelStep suspended = some k) :
    (s.phase = .handleGet ∧ k.phase = .notify ∧ k.channel.Content up down false true locked) ∨
      (s.phase = .notify ∧ k.channel.Content up down false false locked) := by
  unfold Scheduled.kernelStep at hk
  rcases phase with phase | phase
  · rw [phase] at hk
    cases hk
    refine Or.inl ⟨phase, rfl, ?_⟩
    unfold handleGet
    split
    · exact ⟨h.toSysc, h.fmSysc, h.flag, h.event, h.locked⟩
    · exact h
  · rw [phase] at hk
    cases hk
    exact Or.inr ⟨phase, h.toSysc, h.fmSysc, h.flag, rfl, h.locked⟩

end AsyncChannel

/-! ### The record of a run -/

/-- How the recorded lists differ: requests whose packet has not been got, packets got and
not returned by the target, packets got and not put, and answers not pulled. -/
structure Record.Log (r : Record) (waiting called held : List Ptr)
    (unread : List (Ptr × AsyncStatus)) : Prop where
  accepted : r.accepted.map Prod.snd = r.got ++ waiting
  returned : r.got = r.written.map Prod.fst ++ called
  put : r.got = r.put ++ held
  pulled : r.written = r.pulled ++ unread

/-! ### The stages -/

namespace Cosim

/-- The SystemC process waits for the event or has not come to its first wait. -/
def Asleep (sysc : SyscPc) : Prop := sysc = .waitEvent ∨ sysc = .starting

/-- The SystemC process holds no packet. -/
def Resting (sysc : SyscPc) : Prop := Asleep sysc ∨ sysc = .loop

/-- The packet does not end the loops. -/
def Stays (s : Cosim) (p : Ptr) : Prop := (s.heap p).command ≠ AsyncCommand.exit.code

/-- Where the request in hand is. It is stranded when the event was notified before the
SystemC process came to its first wait. -/
inductive Stage (s : Cosim) : Prop
  | idle (os : s.os = .accept ∨ ∃ p, s.os = .reply p ∧ s.Stays p) (sysc : Resting s.sysc)
      (content : s.sched.channel.Content [] [] false false true) (log : s.record.Log [] [] [] [])
  | made (p : Ptr) (os : s.os = .push p) (fresh : p < s.next) (sysc : Resting s.sysc)
      (content : s.sched.channel.Content [] [] false false true) (log : s.record.Log [p] [] [] [])
  | flagged (p : Ptr) (os : s.os = .waitForPut p) (fresh : p < s.next) (sysc : Resting s.sysc)
      (content : s.sched.channel.Content [p] [] true false true) (log : s.record.Log [p] [] [] [])
  | notified (p : Ptr) (os : s.os = .waitForPut p) (fresh : p < s.next) (sysc : Asleep s.sysc)
      (phase : s.sched.phase = .handleGet ∨ s.sched.phase = .notify)
      (content : s.sched.channel.Content [p] [] false true true) (log : s.record.Log [p] [] [] [])
  | stranded (p : Ptr) (os : s.os = .waitForPut p) (fresh : p < s.next) (sysc : Asleep s.sysc)
      (content : s.sched.channel.Content [p] [] false false true) (log : s.record.Log [p] [] [] [])
  | woken (p : Ptr) (os : s.os = .waitForPut p) (fresh : p < s.next) (sysc : s.sysc = .nbGet)
      (content : s.sched.channel.Content [p] [] false false true) (log : s.record.Log [p] [] [] [])
  | called (p : Ptr) (call : TransportCall) (os : s.os = .waitForPut p) (fresh : p < s.next)
      (sysc : s.sysc = .transport p call) (stays : s.Stays p)
      (content : s.sched.channel.Content [] [] false false true) (log : s.record.Log [] [p] [p] [])
  | returned (p : Ptr) (os : s.os = .waitForPut p) (sysc : s.sysc = .nbPut p) (stays : s.Stays p)
      (content : s.sched.channel.Content [] [] false false true)
      (log : s.record.Log [] [] [p] [(p, (s.heap p).status)])
  | served (p : Ptr) (os : s.os = .waitForPut p) (sysc : Resting s.sysc) (stays : s.Stays p)
      (content : s.sched.channel.Content [] [p] false false false)
      (log : s.record.Log [] [] [] [(p, (s.heap p).status)])
  | unlocked (p : Ptr) (os : s.os = .nbPull p) (sysc : Resting s.sysc) (stays : s.Stays p)
      (content : s.sched.channel.Content [] [p] false false true)
      (log : s.record.Log [] [] [] [(p, (s.heap p).status)])
  | abandoned (p : Ptr) (os : s.os = .waitForPut p) (sysc : s.sysc = .leaving ∨ s.sysc = .stopped)
      (exit : (s.heap p).command = AsyncCommand.exit.code)
      (content : s.sched.channel.Content [] [] false false true) (log : s.record.Log [] [p] [p] [])

/-- While the SystemC process runs, the kernel is in its evaluation phase. -/
def RunsInEvaluate (s : Cosim) : Prop := s.sysc.suspended = false → s.sched.phase = .evaluate

theorem runsInEvaluate_step {s t : Cosim} {a : Action} (h : s.RunsInEvaluate)
    (hs : Transition s a t) : t.RunsInEvaluate := by
  cases hs with
  | accept | push | waitForPut | reply => exact h
  | nbPull p os => unfold nbPull; split <;> exact h
  | kernel k sched =>
    intro running
    unfold Scheduled.kernelStep at sched
    split at sched
    · -- the evaluation phase ends only while the process is suspended
      next phase =>
      simp only [deliver, phase, reduceCtorEq, false_and, if_false] at running
      rw [running] at sched
      cases sched
    · next phase =>
      simp only [deliver, phase, reduceCtorEq, false_and, if_false] at running
      exact absurd (phase.symm.trans (h running)) (by decide)
    · next phase =>
      simp only [deliver, phase, reduceCtorEq, false_and, if_false] at running
      exact absurd (phase.symm.trans (h running)) (by decide)
    · cases sched; rfl
  | nbGet sysc =>
    have evaluate := h (by rw [sysc]; rfl)
    unfold nbGet
    split <;> exact fun _ => evaluate
  | target p call r sysc phase => exact fun _ => phase
  | nbPut p sysc => exact fun _ => h (by rw [sysc]; rfl)
  | loop sysc phase | stop sysc phase => exact fun _ => phase

/-! ### Each step moves the request to its next stage -/

theorem alloc_heap_of_lt (s : Cosim) (command : Byte) (address : BitVec 64)
    (dataLen : BitVec 16) (data : List Byte) {p : Ptr} (h : p < s.next) :
    (s.alloc command address dataLen data).heap p = s.heap p := by
  simp [alloc, Nat.ne_of_lt h]

theorem deliver_of_quiet {s : Cosim} (h : s.sched.channel.mSyscPushedEvent = false) :
    s.deliver = s.sysc := by
  simp [deliver, h]

theorem stage_accept {s : Cosim} (h : s.Stage) (os : s.os = .accept) (r : Request) :
    (s.accept r).Stage := by
  cases h with
  | idle _ sysc content log =>
    -- the new packet is the only one on its way
    refine .made s.next rfl (Nat.lt_succ_self _) sysc content ⟨?_, log.returned, log.put, log.pulled⟩
    simpa [accept, alloc] using log.accepted
  -- in the other stages the OS thread has a request in hand
  | _ => simp_all

theorem stage_push {s : Cosim} (h : s.Stage) {p : Ptr} (os : s.os = .push p) :
    (s.push p).Stage := by
  cases h with
  | made q os' fresh sysc content log =>
    obtain rfl : q = p := by simpa [os'] using os
    exact .flagged q rfl fresh sysc (content.push q) log
  -- in the other stages the OS thread is not before its push
  | idle os' => simp [os] at os'
  | _ => simp_all

theorem stage_waitForPut {s : Cosim} (h : s.Stage) {p : Ptr} {c : AsyncChannel Ptr}
    (os : s.os = .waitForPut p) (locked : s.sched.channel.waitForPut = some c) :
    Stage { s with sched.channel := c, os := .nbPull p } := by
  cases h with
  | served q os' sysc stays content log =>
    obtain rfl : q = p := by simpa [os'] using os
    exact .unlocked q rfl sysc stays (content.waitForPut locked).2 log
  | idle os' => simp [os] at os'
  | made q os' | unlocked q os' => simp [os] at os'
  -- before the put the lock is held, so the step is not enabled
  | flagged _ _ _ _ content | notified _ _ _ _ _ content | stranded _ _ _ _ content
  | woken _ _ _ _ content | called _ _ _ _ _ _ content | returned _ _ _ _ content | abandoned _ _ _ _ content =>
    exact absurd (content.waitForPut locked).1 (by decide)

theorem stage_nbPull {s : Cosim} (h : s.Stage) {p : Ptr} (os : s.os = .nbPull p) :
    s.nbPull.Stage := by
  cases h with
  | unlocked q os' sysc stays content log =>
    obtain ⟨d, pulled, content⟩ := content.nbPull
    simp only [nbPull, pulled]
    -- the answer leaves the queue, and every list of the record is even again
    refine .idle (Or.inr ⟨q, rfl, stays⟩) sysc content ⟨log.accepted, log.returned, log.put, ?_⟩
    simpa using log.pulled
  | idle os' => simp [os] at os'
  | _ => simp_all

theorem stage_reply {s : Cosim} (h : s.Stage) {p : Ptr} (os : s.os = .reply p) :
    (s.reply p).Stage := by
  cases h with
  | idle os' sysc content log =>
    obtain ⟨q, os', stays⟩ : ∃ p, s.os = .reply p ∧ s.Stays p := by simpa [os] using os'
    obtain rfl : q = p := by simpa [os'] using os
    -- the packet is no `ASYNC_EXIT`, so the OS thread goes back to its socket
    exact .idle (Or.inl (if_neg stays)) sysc content ⟨log.accepted, log.returned, log.put, log.pulled⟩
  | _ => simp_all

theorem stage_kernel {s : Cosim} (h : s.Stage) (runs : s.RunsInEvaluate) {k : Scheduled Ptr}
    (sched : s.sched.kernelStep s.sysc.suspended = some k) :
    Stage { s with sched := k, sysc := s.deliver } := by
  cases h with
  | idle os sysc content log =>
    rw [deliver_of_quiet content.event]
    exact .idle os sysc (content.kernelStep_quiet sched) log
  | made p os fresh sysc content log =>
    rw [deliver_of_quiet content.event]
    exact .made p os fresh sysc (content.kernelStep_quiet sched) log
  | flagged p os fresh sysc content log =>
    rw [deliver_of_quiet content.event]
    rcases content.kernelStep_flagged sched with content | ⟨before, after, content⟩
    · exact .flagged p os fresh sysc content log
    · -- outside the evaluation phase the process is not on its way through the loop
      have asleep : Asleep s.sysc := by
        rcases sysc with asleep | looping
        · exact asleep
        · rw [runs (by rw [looping]; rfl)] at before
          cases before
      exact .notified p os fresh asleep (Or.inl after) content log
  | notified p os fresh sysc phase content log =>
    rcases content.kernelStep_notified phase sched with ⟨before, after, content'⟩ | ⟨before, content'⟩
    · refine .notified p os fresh ?_ (Or.inr after) content' log
      simpa [deliver, before] using sysc
    · rcases sysc with waiting | starting
      · refine .woken p os fresh ?_ content' log
        simp [deliver, before, content.event, waiting]
      · -- the event comes before the first wait and wakes nobody
        refine .stranded p os fresh (Or.inr ?_) content' log
        simp [deliver, starting]
  | stranded p os fresh sysc content log =>
    rw [deliver_of_quiet content.event]
    exact .stranded p os fresh sysc (content.kernelStep_quiet sched) log
  | woken p os fresh sysc content log =>
    rw [deliver_of_quiet content.event]
    exact .woken p os fresh sysc (content.kernelStep_quiet sched) log
  | called p call os fresh sysc stays content log =>
    rw [deliver_of_quiet content.event]
    exact .called p call os fresh sysc stays (content.kernelStep_quiet sched) log
  | returned p os sysc stays content log =>
    rw [deliver_of_quiet content.event]
    exact .returned p os sysc stays (content.kernelStep_quiet sched) log
  | served p os sysc stays content log =>
    rw [deliver_of_quiet content.event]
    exact .served p os sysc stays (content.kernelStep_quiet sched) log
  | unlocked p os sysc stays content log =>
    rw [deliver_of_quiet content.event]
    exact .unlocked p os sysc stays (content.kernelStep_quiet sched) log
  | abandoned p os sysc exit content log =>
    rw [deliver_of_quiet content.event]
    exact .abandoned p os sysc exit (content.kernelStep_quiet sched) log

theorem stage_nbGet {s : Cosim} (h : s.Stage) (sysc : s.sysc = .nbGet) : s.nbGet.Stage := by
  cases h with
  | woken p os fresh _ content log =>
    obtain ⟨d, got, content⟩ := content.nbGet
    have same := s.alloc_heap_of_lt AsyncCommand.ignore.code 0 0 [] fresh
    have later : p < s.next + 1 := Nat.lt_succ_of_lt fresh
    -- the packet got is older than the placeholder, which changes no packet
    simp only [nbGet, got]
    have log' : s.record.accepted.map Prod.snd = (s.record.got ++ [p]) ++ [] := by simpa using log.accepted
    have held : s.record.got ++ [p] = s.record.put ++ [p] := by simpa using log.put
    have called : s.record.got ++ [p] = s.record.written.map Prod.fst ++ [p] := by simpa using log.returned
    -- with an `ASYNC_EXIT` the process breaks out of its loop
    by_cases exit : (s.heap p).command = AsyncCommand.exit.code
    · refine .abandoned p os (Or.inl ?_) ?_ content ⟨log', called, held, log.pulled⟩
      · simp only [forward, same, exit, if_true]
      · simpa only [forward, same] using exit
    · refine .called p (transportCall (s.heap p).command) os later ?_ ?_ content
        ⟨log', called, held, log.pulled⟩
      · simp only [forward, same, exit, if_false]
      · simpa only [Stays, forward, same] using exit
  | idle _ sysc' | made _ _ _ sysc' | flagged _ _ _ sysc' | notified _ _ _ sysc'
  | stranded _ _ _ sysc' | served _ _ sysc' | unlocked _ _ sysc' | abandoned _ _ sysc' =>
    simp [sysc, Resting, Asleep] at sysc'
  | _ => simp_all

theorem stage_target {s : Cosim} (h : s.Stage) {p : Ptr} {call : TransportCall}
    (sysc : s.sysc = .transport p call) (r : TargetReply) : (s.target p r).Stage := by
  cases h with
  | called q call' os fresh sysc' stays content log =>
    obtain ⟨rfl, rfl⟩ : q = p ∧ call' = call := by simpa [sysc'] using sysc
    -- the target has returned: its status is written and not yet read
    refine .returned q os rfl ?_ content ⟨log.accepted, ?_, log.put, ?_⟩
    · simpa [Stays, target, updatePacket] using stays
    · simpa [target] using log.returned
    · simpa [target, updatePacket, targetReturns] using log.pulled
  | idle _ sysc' | made _ _ _ sysc' | flagged _ _ _ sysc' | notified _ _ _ sysc'
  | stranded _ _ _ sysc' | served _ _ sysc' | unlocked _ _ sysc' | abandoned _ _ sysc' =>
    simp [sysc, Resting, Asleep] at sysc'
  | _ => simp_all

theorem stage_nbPut {s : Cosim} (h : s.Stage) {p : Ptr} (sysc : s.sysc = .nbPut p) :
    (s.nbPut p).Stage := by
  cases h with
  | returned q os sysc' stays content log =>
    obtain rfl : q = p := by simpa [sysc'] using sysc
    -- the put unlocks the mutex of `wait_for_put`
    refine .served q os (Or.inr rfl) stays (content.nbPut q)
      ⟨log.accepted, log.returned, ?_, log.pulled⟩
    simpa [nbPut] using log.put
  | idle _ sysc' | made _ _ _ sysc' | flagged _ _ _ sysc' | notified _ _ _ sysc'
  | stranded _ _ _ sysc' | served _ _ sysc' | unlocked _ _ sysc' | abandoned _ _ sysc' =>
    simp [sysc, Resting, Asleep] at sysc'
  | _ => simp_all

theorem stage_loop {s : Cosim} (h : s.Stage) (sysc : AtTop s.sysc) (phase : s.sched.phase = .evaluate) :
    Stage { s with sysc := .waitEvent } := by
  have waits : Asleep .waitEvent := Or.inl rfl
  cases h with
  | idle os _ content log => exact .idle os (Or.inl waits) content log
  | made p os fresh _ content log => exact .made p os fresh (Or.inl waits) content log
  | flagged p os fresh _ content log => exact .flagged p os fresh (Or.inl waits) content log
  | stranded p os fresh _ content log => exact .stranded p os fresh waits content log
  | served p os _ stays content log => exact .served p os (Or.inl waits) stays content log
  | unlocked p os _ stays content log => exact .unlocked p os (Or.inl waits) stays content log
  -- between the notification and its delivery no process runs
  | notified _ _ _ _ phase' => simp [phase] at phase'
  | woken _ _ _ sysc' | called _ _ _ _ sysc' | returned _ _ sysc' => simp [sysc', AtTop] at sysc
  | abandoned _ _ sysc' => rcases sysc' with sysc' | sysc' <;> simp [sysc', AtTop] at sysc

theorem stage_stop {s : Cosim} (h : s.Stage) (sysc : s.sysc = .leaving) :
    Stage { s with sysc := .stopped } := by
  cases h with
  | abandoned p os _ exit content log => exact .abandoned p os (Or.inr rfl) exit content log
  | idle _ sysc' | made _ _ _ sysc' | flagged _ _ _ sysc' | notified _ _ _ sysc'
  | stranded _ _ _ sysc' | served _ _ sysc' | unlocked _ _ sysc' =>
    simp [sysc, Resting, Asleep] at sysc'
  | _ => simp_all

theorem stage_step {s t : Cosim} {a : Action} (stage : s.Stage) (runs : s.RunsInEvaluate)
    (hs : Transition s a t) : t.Stage := by
  cases hs with
  | accept r os => exact stage_accept stage os r
  | push p os => exact stage_push stage os
  | waitForPut p c os locked => exact stage_waitForPut stage os locked
  | nbPull p os => exact stage_nbPull stage os
  | reply p os => exact stage_reply stage os
  | kernel k sched => exact stage_kernel stage runs sched
  | nbGet sysc => exact stage_nbGet stage sysc
  | target p call r sysc phase => exact stage_target stage sysc r
  | nbPut p sysc => exact stage_nbPut stage sysc
  | loop sysc phase => exact stage_loop stage sysc phase
  | stop sysc phase => exact stage_stop stage sysc

theorem stage_new : new.Stage :=
  .idle (Or.inl rfl) (Or.inl (Or.inr rfl)) ⟨rfl, rfl, rfl, rfl, rfl⟩ ⟨rfl, rfl, rfl, rfl⟩

/-- In every reachable state the request in hand is in one of the stages. -/
theorem stage_reachable {s : Cosim} (h : machine.Reachable s) : s.Stage ∧ s.RunsInEvaluate := by
  -- a stage needs the other invariant for the step in which the event is delivered
  refine h.invariant (I := fun s => s.Stage ∧ s.RunsInEvaluate) ⟨stage_new, fun _ => rfl⟩ ?_
  rintro s a t ⟨stage, runs⟩ hs
  have transition := transition_of_step hs
  exact ⟨stage_step stage runs transition, runsInEvaluate_step runs transition⟩

/-! ### Replies answer requests -/

theorem Stage.queues {s : Cosim} (h : s.Stage) :
    s.sched.channel.mQueueToSysc.length + s.sched.channel.mQueueFmSysc.length ≤ 1 := by
  cases h with
  | idle _ _ content | made _ _ _ _ content | flagged _ _ _ _ content
  | notified _ _ _ _ _ content | stranded _ _ _ _ content | woken _ _ _ _ content
  | called _ _ _ _ _ _ content | returned _ _ _ _ content | served _ _ _ _ content | unlocked _ _ _ _ content
  | abandoned _ _ _ _ content => simp [content.toSysc, content.fmSysc]

theorem Stage.nbGet_ne_none {s : Cosim} (h : s.Stage) (sysc : s.sysc = .nbGet) :
    s.sched.channel.nbGet ≠ none := by
  cases h with
  | woken p os fresh _ content =>
    obtain ⟨d, got, -⟩ := content.nbGet
    simp [got]
  | idle _ sysc' | made _ _ _ sysc' | flagged _ _ _ sysc' | notified _ _ _ sysc'
  | stranded _ _ _ sysc' | served _ _ sysc' | unlocked _ _ sysc' | abandoned _ _ sysc' =>
    simp [sysc, Resting, Asleep] at sysc'
  | _ => simp_all

/-- At its `nb_pull` the OS thread finds the packet it pushed, with the status that the
SystemC process wrote last. -/
theorem Stage.nbPull_yields {s : Cosim} (h : s.Stage) {p : Ptr} (os : s.os = .nbPull p) :
    (∃ c, s.sched.channel.nbPull = some (p, c)) ∧
      s.record.accepted.getLast?.map Prod.snd = some p ∧
      s.record.written.getLast? = some (p, (s.heap p).status) := by
  cases h with
  | unlocked q os' sysc stays content log =>
    obtain rfl : q = p := by simpa [os'] using os
    obtain ⟨d, pulled, -⟩ := content.nbPull
    have written := log.pulled
    -- between the target's return and the pull, all requests have been written
    have accepted : s.record.accepted.map Prod.snd = s.record.written.map Prod.fst := by
      rw [log.accepted, log.returned, List.append_nil, List.append_nil]
    refine ⟨⟨d, pulled⟩, ?_, by simp [written]⟩
    rw [← List.getLast?_map, accepted, written]
    simp
  | idle os' => simp [os] at os'
  | _ => simp_all

theorem Stage.pulled_prefix {s : Cosim} (h : s.Stage) :
    s.record.pulled <+: s.record.written ∧
      s.record.written.map Prod.fst <+: s.record.accepted.map Prod.snd := by
  cases h with
  | idle _ _ _ log | made _ _ _ _ _ log | flagged _ _ _ _ _ log
  | notified _ _ _ _ _ _ log | stranded _ _ _ _ _ log | woken _ _ _ _ _ log
  | called _ _ _ _ _ _ _ log | returned _ _ _ _ _ log | served _ _ _ _ _ log | unlocked _ _ _ _ _ log
  | abandoned _ _ _ _ _ log =>
    refine ⟨⟨_, log.pulled.symm⟩, ?_⟩
    rw [log.accepted, log.returned, List.append_assoc]
    exact List.prefix_append _ _

private theorem getElem?_of_prefix {α : Type} {xs ys : List α} (h : xs <+: ys) {k : Nat} {x : α}
    (hx : xs[k]? = some x) : ys[k]? = some x := by
  obtain ⟨rest, rfl⟩ := h
  rw [List.getElem?_append_left (List.getElem?_eq_some_iff.mp hx).1]
  exact hx

/-- In every reachable state the queues hold at most one packet, `nb_get` and `nb_pull` do
not fail where the loops call them, `nb_pull` yields the packet pushed last with the status
written for it, and the k-th reply carries the k-th written status and the k-th request's
packet. -/
theorem replies_answer_requests {s : Cosim} (h : machine.Reachable s) :
    s.sched.channel.mQueueToSysc.length + s.sched.channel.mQueueFmSysc.length ≤ 1 ∧
      (s.sysc = .nbGet → s.sched.channel.nbGet ≠ none) ∧
      (∀ p, s.os = .nbPull p →
        (∃ c, s.sched.channel.nbPull = some (p, c)) ∧
          s.record.accepted.getLast?.map Prod.snd = some p ∧
          s.record.written.getLast? = some (p, (s.heap p).status)) ∧
      (∀ (k : Nat) p status, s.record.pulled[k]? = some (p, status) →
        s.record.written[k]? = some (p, status) ∧ ∃ r, s.record.accepted[k]? = some (r, p)) := by
  obtain ⟨stage, -⟩ := stage_reachable h
  refine ⟨stage.queues, stage.nbGet_ne_none, fun p => stage.nbPull_yields, ?_⟩
  intro k p status reply
  -- what is pulled was written before, and what is written was accepted before
  obtain ⟨pulled, written⟩ := stage.pulled_prefix
  have wrote : s.record.written[k]? = some (p, status) := getElem?_of_prefix pulled reply
  refine ⟨wrote, ?_⟩
  -- the packets of the writes are those of the requests, in the same order
  have made : (s.record.accepted.map Prod.snd)[k]? = some p :=
    getElem?_of_prefix written (by simp [wrote])
  rw [List.getElem?_map] at made
  obtain ⟨⟨r, q⟩, accepted, same⟩ := Option.map_eq_some_iff.mp made
  exact ⟨r, same ▸ accepted⟩

/-- A run that serves one read, up to the OS thread's reply. -/
def servedRead : List Action :=
  [.loop, .accept ⟨AsyncCommand.read.code, 0x40, [0, 0, 0, 0]⟩, .push, .kernel, .kernel, .kernel,
    .kernel, .nbGet, .target ⟨.ok, [1, 2, 3, 4]⟩, .nbPut, .loop, .waitForPut, .nbPull]

def afterRead : Cosim := (machine.run new servedRead).getD new

theorem replies_answer_requests_of_read :
    afterRead.record.pulled[0]? = some (0, .okResponse) ∧
      ∃ r, afterRead.record.accepted[0]? = some (r, 0) :=
  have matching := replies_answer_requests (s := afterRead) ⟨servedRead, rfl⟩
  ⟨rfl, (matching.2.2.2 0 0 .okResponse rfl).2⟩

end Cosim

end ScCosim.Async
