import ScCosim.Async.Matching

/-!
# The payload that lives across rounds

`asysc_sysc_thread_process` keeps one `tlm_generic_payload` for its whole life. The command
switch writes the payload's command for the five TLM commands only, so for any other byte
the target is called with the command of an earlier packet.
-/
namespace ScCosim.Async

open Kernel

/-- The five commands that the first switch translates. -/
def isTlmCommand (command : Byte) : Bool :=
  command = AsyncCommand.ignore.code || command = AsyncCommand.read.code ||
    command = AsyncCommand.write.code || command = AsyncCommand.debugRead.code ||
    command = AsyncCommand.debugWrite.code

/-- A packet and the target's answer to it. -/
abbrev Handled := AsyncPacket × TargetReply

/-- The payload after one whole round. -/
def round (trans : TlmPayload) (h : Handled) : TlmPayload :=
  targetReturns (setupTrans trans h.1) h.2

/-- The payload after a history of rounds, oldest first. -/
def payloadAfter (history : List Handled) : TlmPayload := history.foldl round {}

/-- A history after which the process is still in its loop. -/
def Continues (history : List Handled) : Prop :=
  ∀ h ∈ history, h.1.command ≠ AsyncCommand.exit.code

/-- The TLM command with which the target is called for `p` after a history; it is not
called for an `ASYNC_EXIT`. -/
def calledWith (history : List Handled) (p : AsyncPacket) : Option TlmCommand :=
  if p.command = AsyncCommand.exit.code then none
  else some (setupTrans (payloadAfter history) p).command

theorem switchCommand_of_tlm {command : Byte} (h : isTlmCommand command = true)
    (current other : TlmCommand) : switchCommand command current = switchCommand command other := by
  simp only [isTlmCommand, Bool.or_eq_true, decide_eq_true_eq] at h
  rcases h with (((h | h) | h) | h) | h <;> subst h <;> rfl

theorem switchCommand_of_other {command : Byte} (h : isTlmCommand command = false)
    (current : TlmCommand) : switchCommand command current = current := by
  simp only [isTlmCommand, Bool.or_eq_false_iff, decide_eq_false_iff_not] at h
  obtain ⟨⟨⟨⟨ignore, read⟩, write⟩, debugRead⟩, debugWrite⟩ := h
  simp [switchCommand, ignore, read, write, debugRead, debugWrite]

theorem calledWith_of_other {p : AsyncPacket} (other : isTlmCommand p.command = false)
    (stays : p.command ≠ AsyncCommand.exit.code) (history : List Handled) :
    calledWith history p = some (payloadAfter history).command := by
  simp [calledWith, stays, setupTrans, switchCommand_of_other other]

/-- A write request, used to leave a write command behind in the payload. -/
def writePacket : AsyncPacket := AsyncPacket.new 0 AsyncCommand.write.code 0 4 [0, 0, 0, 0]

/-- For a packet `p` the target's command does not depend on the history, and a command
outside the five makes no read or write, exactly when `p`'s command is one of the five or
`ASYNC_EXIT`. -/
theorem called_command_independent_iff (p : AsyncPacket) :
    ((∀ history other, Continues history → Continues other →
        calledWith history p = calledWith other p) ∧
      (isTlmCommand p.command = false → ∀ history, Continues history →
        calledWith history p ≠ some .read ∧ calledWith history p ≠ some .write)) ↔
    (isTlmCommand p.command = true ∨ p.command = AsyncCommand.exit.code) := by
  constructor
  · rintro ⟨-, harmless⟩
    by_contra neither
    simp only [not_or, Bool.not_eq_true] at neither
    obtain ⟨other, stays⟩ := neither
    -- the payload still carries the command of the write before
    let history : List Handled := [(writePacket, ⟨.ok, []⟩)]
    have continues : Continues history := by
      intro h member
      rw [List.mem_singleton.mp member]
      decide
    have called := calledWith_of_other other stays history
    exact (harmless other history continues).2 called
  · rintro (tlm | exit)
    · refine ⟨fun history other _ _ => ?_, fun none => by simp [tlm] at none⟩
      -- the switch overwrites the command, whatever it was
      simp only [calledWith, setupTrans]
      rw [switchCommand_of_tlm tlm]
    · exact ⟨fun _ _ _ _ => by simp [calledWith, exit], fun _ _ _ => by simp [calledWith, exit]⟩

/-- After a write, an `ASYNC_INTERRUPT` calls the target with a write. -/
theorem interrupt_repeats_write :
    ¬ ∀ p : AsyncPacket,
      (∀ history other, Continues history → Continues other →
        calledWith history p = calledWith other p) ∧
      (isTlmCommand p.command = false → ∀ history, Continues history →
        calledWith history p ≠ some .read ∧ calledWith history p ≠ some .write) := by
  intro claim
  have iff := (claim (AsyncPacket.new 1 AsyncCommand.interrupt.code 0 4 [0, 0, 0, 0])).2 (by decide)
    [(writePacket, ⟨.ok, []⟩)] (by simp [Continues, writePacket, AsyncPacket.new]; decide)
  exact iff.2 (by decide)

/-! ### The loop keeps the payload of its history -/

theorem payloadAfter_concat (history : List Handled) (h : Handled) :
    payloadAfter (history ++ [h]) = round (payloadAfter history) h := by
  simp [payloadAfter]

theorem Continues.concat {history : List Handled} (h : Continues history) {p : AsyncPacket}
    (stays : p.command ≠ AsyncCommand.exit.code) (r : TargetReply) :
    Continues (history ++ [(p, r)]) := by
  intro x member
  rcases List.mem_append.mp member with old | new
  · exact h x old
  · rw [List.mem_singleton.mp new]
    exact stays

namespace Cosim

/-- The payload is that of a history of rounds, with the packet in hand set up on top of it
while the target is being called. Past the loop it is not used again. -/
def FromHistory (s : Cosim) : Prop :=
  ∃ history, Continues history ∧
    match s.sysc with
    | .transport p _ => s.Stays p ∧ s.trans = setupTrans (payloadAfter history) (s.heap p)
    | .leaving | .stopped => True
    | _ => s.trans = payloadAfter history

theorem forward_fromHistory {s : Cosim} {history : List Handled} (continues : Continues history)
    (same : s.trans = payloadAfter history) (p : Ptr) : (s.forward p).FromHistory := by
  refine ⟨history, continues, ?_⟩
  by_cases exit : (s.heap p).command = AsyncCommand.exit.code
  · simp only [forward, exit, if_true]
  · simp only [forward, exit, if_false, Stays, same]
    exact ⟨exit, trivial⟩

/-- While the target is being called the OS thread waits, so no packet is being made. -/
theorem Stage.not_transport_of_accept {s : Cosim} (h : s.Stage) (os : s.os = .accept) (p : Ptr)
    (call : TransportCall) : s.sysc ≠ .transport p call := by
  intro transport
  cases h with
  | idle _ sysc => simp [transport, Resting, Asleep] at sysc
  | _ => simp_all

theorem fromHistory_step {s t : Cosim} {a : Action} (stage : s.Stage) (h : s.FromHistory)
    (hs : Transition s a t) : t.FromHistory := by
  obtain ⟨history, continues, same⟩ := h
  cases hs with
  | accept r os =>
    have elsewhere := stage.not_transport_of_accept os
    refine ⟨history, continues, ?_⟩
    cases sysc : s.sysc with
    -- a new packet could only disturb the one the target is being called with
    | transport p call => exact absurd sysc (elsewhere p call)
    | leaving | stopped => simp only [accept, alloc, sysc]
    | _ => simpa only [accept, alloc, sysc] using same
  | push | waitForPut | reply => exact ⟨history, continues, same⟩
  | nbPull p os =>
    unfold nbPull
    split <;> exact ⟨history, continues, same⟩
  | kernel k sched =>
    refine ⟨history, continues, ?_⟩
    by_cases woken : s.sched.phase = .notify ∧ s.sched.channel.mSyscPushedEvent = true ∧
        s.sysc = .waitEvent
    · -- the process is woken: its payload is that of the rounds so far
      simp only [woken.2.2] at same
      simpa only [deliver, woken, and_self, if_true] using same
    · simp only [deliver, woken, if_false]
      exact same
  | nbGet sysc =>
    simp only [sysc] at same
    unfold nbGet
    split
    · -- 'Missing response': the placeholder itself is forwarded
      exact forward_fromHistory (s := s.alloc _ _ _ _) continues same _
    · -- the placeholder is not the packet that is forwarded
      refine forward_fromHistory continues ?_ _
      exact same
  | target p call r sysc =>
    simp only [sysc] at same
    -- one more round is over
    refine ⟨history ++ [(s.heap p, r)], continues.concat same.1 r, ?_⟩
    simp only [target, payloadAfter_concat, round, same.2]
  | nbPut p sysc =>
    simp only [sysc] at same
    exact ⟨history, continues, same⟩
  | loop sysc =>
    rcases sysc with sysc | sysc <;> simp only [sysc] at same <;> exact ⟨history, continues, same⟩
  | stop sysc => exact ⟨history, continues, trivial⟩

/-- The interleaved loop makes exactly the calls that `calledWith` describes. -/
theorem calledWith_of_transport {s : Cosim} (h : machine.Reachable s) {p : Ptr}
    {call : TransportCall} (sysc : s.sysc = .transport p call) :
    ∃ history, Continues history ∧
      calledWith history (s.heap p) = some s.trans.command := by
  have inv : s.Stage ∧ s.RunsInEvaluate ∧ s.FromHistory := by
    refine h.invariant (I := fun s => s.Stage ∧ s.RunsInEvaluate ∧ s.FromHistory)
      ⟨stage_new, fun _ => rfl, [], by simp [Continues], rfl⟩ ?_
    rintro s a t ⟨stage, runs, payload⟩ hs
    have transition := transition_of_step hs
    exact ⟨stage_step stage runs transition, runsInEvaluate_step runs transition,
      fromHistory_step stage payload transition⟩
  obtain ⟨-, -, history, continues, same⟩ := inv
  simp only [sysc] at same
  refine ⟨history, continues, ?_⟩
  rw [calledWith, if_neg same.1, same.2]

end Cosim

end ScCosim.Async
