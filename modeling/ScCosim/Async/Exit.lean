import ScCosim.Async.Matching

/-!
# Leaving the loops

The SystemC process breaks out of its loop on an `ASYNC_EXIT` before it puts the packet
back, so the OS thread stays in `wait_for_put` and its own exit code never runs.
-/
namespace ScCosim.Async

open Kernel

namespace Cosim

/-- No request is left unanswered: a packet got is put before the process waits or leaves,
the OS thread is not blocked behind a process that has left, and an accepted `ASYNC_EXIT`
can still bring the OS thread past its loop. -/
structure Answered (s : Cosim) : Prop where
  put : s.sysc = .waitEvent ∨ s.sysc = .leaving ∨ s.sysc = .stopped →
    s.record.got = s.record.put
  unblocked : ∀ p, s.os = .waitForPut p → s.sched.channel.waitForPut = none →
    s.sched.channel.mQueueToSysc = [] → s.sched.channel.mQueueFmSysc = [] →
      ¬ (s.sysc = .leaving ∨ s.sysc = .stopped)
  cleanup : ∀ r ∈ s.record.accepted, r.1.command = AsyncCommand.exit.code →
    ∃ as t, machine.run s as = some t ∧ t.os = .closed

/-- A packet on the heap keeps the command of the request it was made for. -/
def KeepsCommands (s : Cosim) : Prop :=
  ∀ r ∈ s.record.accepted, r.2 < s.next ∧ (s.heap r.2).command = r.1.command

section keeps

variable {α : Type} {f : AsyncPacket → α} {g : Request → α}

/-- Each accepted request has a packet on the heap, and what `f` reads of the packet is what
`g` reads of the request. -/
def Keeps (f : AsyncPacket → α) (g : Request → α) (s : Cosim) : Prop :=
  ∀ r ∈ s.record.accepted, r.2 < s.next ∧ f (s.heap r.2) = g r.1

theorem keeps_alloc {s : Cosim} (h : s.Keeps f g) (command : Byte)
    (address : BitVec 64) (dataLen : BitVec 16) (data : List Byte) :
    (s.alloc command address dataLen data).Keeps f g := by
  intro r member
  obtain ⟨old, same⟩ := h r member
  refine ⟨Nat.lt_succ_of_lt old, ?_⟩
  rw [alloc_heap_of_lt _ _ _ _ _ old]
  exact same

/-- Neither the status nor the data counts for `f`: nothing else of a packet is changed. -/
theorem keeps_step
    (made : ∀ id r, f (AsyncPacket.new id r.command (r.address.zeroExtend 64) 4 r.data) = g r)
    (updated : ∀ p trans, f (updatePacket p trans) = f p)
    {s t : Cosim} {a : Action} (h : s.Keeps f g) (hs : Transition s a t) : t.Keeps f g := by
  cases hs with
  | accept r os =>
    intro x member
    rcases List.mem_append.mp member with old | new
    · exact keeps_alloc h _ _ _ _ x old
    · -- the packet made for the request itself
      rw [List.mem_singleton.mp new]
      refine ⟨Nat.lt_succ_self _, ?_⟩
      simpa [accept, alloc] using made s.next r
  | push | waitForPut | reply | kernel | nbPut | loop | stop => exact h
  | nbPull p os => unfold nbPull; split <;> exact h
  | nbGet sysc =>
    unfold nbGet
    split <;> exact keeps_alloc h AsyncCommand.ignore.code 0 0 []
  -- the target changes the status and the data of a packet
  | target p call r sysc phase =>
    intro x member
    obtain ⟨old, same⟩ := h x member
    refine ⟨old, ?_⟩
    rw [← same]
    by_cases here : x.2 = p
    · simp [target, here, updated]
    · simp [target, here]

theorem keeps_reachable
    (made : ∀ id r, f (AsyncPacket.new id r.command (r.address.zeroExtend 64) 4 r.data) = g r)
    (updated : ∀ p trans, f (updatePacket p trans) = f p)
    {s : Cosim} (h : machine.Reachable s) : s.Keeps f g :=
  h.invariant (by simp [Keeps, machine, new]) fun _ _ _ keeps hs =>
    keeps_step made updated keeps (transition_of_step hs)

end keeps

theorem keepsCommands_reachable {s : Cosim} (h : machine.Reachable s) : s.KeepsCommands :=
  keeps_reachable (fun _ _ => rfl) (fun _ _ => rfl) h

/-- The OS thread never passes its loop. -/
theorem never_closed {s : Cosim} (h : machine.Reachable s) : s.os ≠ .closed := by
  intro closed
  cases (stage_reachable h).1 with
  | idle os => simp [closed] at os
  | _ => simp_all

/-- The process leaves its loop only with an `ASYNC_EXIT` in hand. -/
theorem exit_of_left {s : Cosim} (h : machine.Reachable s)
    (left : s.sysc = .leaving ∨ s.sysc = .stopped) :
    ∃ r ∈ s.record.accepted, r.1.command = AsyncCommand.exit.code := by
  cases (stage_reachable h).1 with
  | abandoned p os sysc exit content log =>
    -- the packet in hand was made for some request, whose command it keeps
    have taken : p ∈ s.record.accepted.map Prod.snd := by
      simp [log.accepted, log.put]
    obtain ⟨r, accepted, rfl⟩ := List.mem_map.mp taken
    exact ⟨r, accepted, ((keepsCommands_reachable h) r accepted).2 ▸ exit⟩
  | idle _ sysc | made _ _ _ sysc | flagged _ _ _ sysc | served _ _ sysc | unlocked _ _ sysc =>
    rcases sysc with (sysc | sysc) | sysc <;> simp [sysc] at left
  | notified _ _ _ sysc | stranded _ _ _ sysc => rcases sysc with sysc | sysc <;> simp [sysc] at left
  | woken _ _ _ sysc | called _ _ _ _ sysc | returned _ _ sysc =>
    simp [sysc] at left

theorem got_eq_put_of_waiting {s : Cosim} (h : machine.Reachable s) (waiting : s.sysc = .waitEvent) :
    s.record.got = s.record.put := by
  cases (stage_reachable h).1 with
  | idle _ _ _ log | made _ _ _ _ _ log | flagged _ _ _ _ _ log | notified _ _ _ _ _ _ log
  | stranded _ _ _ _ _ log | served _ _ _ _ _ log | unlocked _ _ _ _ _ log => simpa using log.put
  | woken _ _ _ sysc | called _ _ _ _ sysc | returned _ _ sysc | abandoned _ _ sysc =>
    simp [waiting] at sysc

/-- No request is left unanswered exactly as long as no client has sent an `ASYNC_EXIT`. -/
theorem answered_iff_no_exit {s : Cosim} (h : machine.Reachable s) :
    s.Answered ↔ ∀ r ∈ s.record.accepted, r.1.command ≠ AsyncCommand.exit.code := by
  constructor
  · intro answered r accepted exit
    obtain ⟨as, t, hr, closed⟩ := answered.cleanup r accepted exit
    -- the OS thread is blocked for good, so no run brings it past its loop
    exact never_closed (h.run hr) closed
  · intro stays
    -- without an exit the process never leaves, and there is nothing to clean up
    have remains : ¬ (s.sysc = .leaving ∨ s.sysc = .stopped) := by
      intro left
      obtain ⟨r, accepted, exit⟩ := exit_of_left h left
      exact stays r accepted exit
    refine ⟨?_, fun _ _ _ _ _ => remains, fun r accepted exit => absurd exit (stays r accepted)⟩
    rintro (waiting | left)
    · exact got_eq_put_of_waiting h waiting
    · exact absurd left remains

theorem answered_after_read : afterRead.Answered :=
  (answered_iff_no_exit ⟨servedRead, rfl⟩).mpr (by decide)

/-- A run in which a client sends an `ASYNC_EXIT`. -/
def exitRun : List Action :=
  [.loop, .accept ⟨AsyncCommand.exit.code, 0, [0, 0, 0, 0]⟩, .push, .kernel, .kernel, .kernel,
    .kernel, .nbGet, .stop]

/-- After an `ASYNC_EXIT` the OS thread is blocked with both queues empty and the process is
past its loop with the packet not put. -/
theorem exit_left_unanswered : ¬ ∀ s, machine.Reachable s → s.Answered := by
  intro claim
  have answered := claim ((machine.run new exitRun).get rfl) ⟨exitRun, rfl⟩
  exact absurd (answered.put (Or.inr (Or.inr rfl))) (by decide)

end Cosim

end ScCosim.Async
