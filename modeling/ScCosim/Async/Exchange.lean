import ScCosim.Kernel.Mealy
import ScCosim.Kernel.Trace
import ScCosim.Async.Exit
import ScCosim.Async.Payload

/-!
# The interface seen from both ends

Between a client and the target stand a socket, two queues, two loops and the kernel. None
of it shows: the target is called with the requests in their order, one call for each, and
the k-th reply is what the k-th call has left. Where the target answers at once, the clients
get what it would answer to their requests without the interface.
-/
namespace ScCosim.Async

open Kernel

/-- A call of the target, with what it left. -/
structure TargetCall where
  trans : TlmPayload
  call : TransportCall
  reply : TargetReply

/-- What the target is given. -/
def TargetCall.presented (c : TargetCall) : TlmPayload × TransportCall := (c.trans, c.call)

/-- What comes of it for a client. -/
def TargetCall.returned (c : TargetCall) : AsyncStatus × List Byte :=
  (statusOf c.reply.responseStatus, c.reply.data)

/-- The payload for a request, where the one before it has left the command `current`. -/
def payload (current : TlmCommand) (q : Request) : TlmPayload where
  command := switchCommand q.command current
  address := q.address.zeroExtend 64
  data := q.data
  dataLength := 4
  streamingWidth := 4
  byteEnables := false
  dmiAllowed := false
  responseStatus := .incomplete

/-- The command that some requests leave in the payload. -/
def commandAfter (current : TlmCommand) (qs : List Request) : TlmCommand :=
  qs.foldl (fun c q => switchCommand q.command c) current

/-- What the target is to be given for some requests. -/
def payloads (current : TlmCommand) : List Request → List (TlmPayload × TransportCall)
  | [] => []
  | q :: qs =>
    (payload current q, transportCall q.command) ::
      payloads (switchCommand q.command current) qs

theorem payloads_append (current : TlmCommand) (qs rs : List Request) :
    payloads current (qs ++ rs) = payloads current qs ++ payloads (commandAfter current qs) rs := by
  induction qs generalizing current with
  | nil => rfl
  | cons q qs ih => simp [payloads, commandAfter, ih]

theorem commandAfter_snoc (current : TlmCommand) (qs : List Request) (q : Request) :
    commandAfter current (qs ++ [q]) = switchCommand q.command (commandAfter current qs) := by
  simp [commandAfter]

namespace Cosim

variable {s t : Cosim}

/-- A call is over when the target returns. -/
def ended (s : Cosim) (a : Action) (_ : Cosim) : List TargetCall :=
  match a with
  | .target r =>
    match s.sysc with
    | .transport _ call => [⟨s.trans, call, r⟩]
    | _ => []
  | _ => []

/-- The calls of a run that are over. -/
def callsOf (as : List Action) : List TargetCall := machine.trace ended new as

/-- The requests whose call is over. -/
def served (s : Cosim) : List Request :=
  (s.record.accepted.map Prod.fst).take s.record.written.length

/-- What has been written into the packets, as it is found there. -/
def answered (s : Cosim) : List (AsyncStatus × List Byte) :=
  s.record.written.map fun w => (w.2, (s.heap w.1).data)

/-- What the OS thread has pulled, as it is found in the packets. -/
def replies (s : Cosim) : List (AsyncStatus × List Byte) :=
  s.record.pulled.map fun w => (w.2, (s.heap w.1).data)

/-! ### Packets -/

/-- Every request has a packet of its own. -/
def Separate (s : Cosim) : Prop := (s.record.accepted.map Prod.snd).Nodup

/-- Until the target has written it, a packet holds the data of its request. -/
def Untouched (s : Cosim) : Prop :=
  ∀ r ∈ s.record.accepted, r.2 ∉ s.record.written.map Prod.fst → (s.heap r.2).data = r.1.data

/-- The fields that the interface hands to the target, apart from the data. -/
theorem fields_reachable (h : machine.Reachable s) :
    s.Keeps (fun p => (p.command, p.address, p.dataLen))
      fun q => (q.command, q.address.zeroExtend 64, 4) :=
  keeps_reachable (fun _ _ => rfl) (fun _ _ => rfl) h

theorem older_of_accepted (h : machine.Reachable s) {r : Request × Ptr}
    (member : r ∈ s.record.accepted) : r.2 < s.next :=
  (fields_reachable h r member).1

/-- What has been written was made for a request. -/
theorem older_of_written (h : machine.Reachable s) {p : Ptr}
    (member : p ∈ s.record.written.map Prod.fst) : p < s.next := by
  have stage := (stage_reachable h).1
  have made := stage.pulled_prefix.2.subset member
  obtain ⟨r, accepted, rfl⟩ := List.mem_map.mp made
  exact older_of_accepted h accepted

theorem written_le_accepted (h : machine.Reachable s) :
    s.record.written.length ≤ s.record.accepted.length := by
  have stage := (stage_reachable h).1
  have shorter := stage.pulled_prefix.2.length_le
  simpa using shorter

/-! ### Each step of the loops -/

/-- The payload holds what the requests before have left, with the request in hand set up on
top of it while the target is being called. Past the loop it is not used again. -/
def Presents (s : Cosim) : Prop :=
  match s.sysc with
  | .transport p call =>
    ∃ before q, s.record.accepted = before ++ [(q, p)] ∧
      before.map Prod.snd = s.record.written.map Prod.fst ∧
      (s.trans, call) =
        (payload (commandAfter .ignore (before.map Prod.fst)) q, transportCall q.command)
  | .leaving | .stopped => True
  | _ => s.trans.command = commandAfter .ignore s.served

/-- How the calls of a run so far are found in the state that it has led to. -/
structure Exchanged (calls : List TargetCall) (s : Cosim) : Prop where
  separate : s.Separate
  untouched : s.Untouched
  presented : calls.map TargetCall.presented = payloads .ignore s.served
  returned : s.answered = calls.map TargetCall.returned
  presents : s.Presents

theorem exchanged_new : Exchanged [] new :=
  ⟨List.nodup_nil, by simp [Untouched, new], rfl, rfl, rfl⟩

theorem served_of_accepted {r : Request × Ptr}
    (shorter : s.record.written.length ≤ s.record.accepted.length)
    (accepted : t.record.accepted = s.record.accepted ++ [r])
    (written : t.record.written = s.record.written) : t.served = s.served := by
  rw [served, served, accepted, written, List.map_append, List.take_append_of_le_length]
  simpa using shorter

/-- Making a packet leaves the older ones as they were. -/
theorem answered_of_older (reachable : machine.Reachable s)
    (written : t.record.written = s.record.written)
    (heap : ∀ p, p < s.next → t.heap p = s.heap p) : t.answered = s.answered := by
  rw [answered, answered, written]
  apply List.map_congr_left
  intro w member
  rw [heap w.1 (older_of_written reachable (List.mem_map_of_mem member))]

theorem Untouched.of_older (h : s.Untouched) (reachable : machine.Reachable s)
    (accepted : t.record.accepted = s.record.accepted)
    (written : t.record.written = s.record.written)
    (heap : ∀ p, p < s.next → t.heap p = s.heap p) : t.Untouched := by
  intro r member unwritten
  rw [accepted] at member
  rw [written] at unwritten
  rw [heap r.2 (older_of_accepted reachable member)]
  exact h r member unwritten

variable {calls : List TargetCall}

/-- A step that makes no packet and is no step of the SystemC process. -/
theorem Exchanged.same (h : Exchanged calls s) (heap : t.heap = s.heap)
    (trans : t.trans = s.trans) (sysc : t.sysc = s.sysc)
    (accepted : t.record.accepted = s.record.accepted)
    (written : t.record.written = s.record.written) : Exchanged calls t := by
  obtain ⟨separate, untouched, presented, returned, presents⟩ := h
  constructor
  · rwa [Separate, accepted]
  · rwa [Untouched, accepted, written, heap]
  · rwa [served, accepted, written]
  · rwa [answered, written, heap]
  · rwa [Presents, served, sysc, accepted, written, trans]

theorem exchanged_accept (reachable : machine.Reachable s) (h : Exchanged calls s)
    (os : s.os = .accept) (r : Request) : Exchanged calls (s.accept r) := by
  have accepted : (s.accept r).record.accepted = s.record.accepted ++ [(r, s.next)] := rfl
  have written : (s.accept r).record.written = s.record.written := rfl
  have older : ∀ p, p < s.next → (s.accept r).heap p = s.heap p := fun p lt =>
    s.alloc_heap_of_lt _ _ _ _ lt
  have same := served_of_accepted (written_le_accepted reachable) accepted written
  have fresh : s.next ∉ s.record.accepted.map Prod.snd := by
    intro member
    obtain ⟨q, made, last⟩ := List.mem_map.mp member
    exact absurd last (Nat.ne_of_lt (older_of_accepted reachable made))
  constructor
  · rw [Separate, accepted, List.map_append]
    refine List.nodup_append.mpr ⟨h.separate, by simp, ?_⟩
    rintro p old q new rfl
    rw [List.map_singleton, List.mem_singleton] at new
    obtain rfl : p = s.next := new
    exact fresh old
  · intro q member unwritten
    rw [written] at unwritten
    rcases List.mem_append.mp member with old | new
    · rw [older q.2 (older_of_accepted reachable old)]
      exact h.untouched q old unwritten
    · rw [List.mem_singleton.mp new]
      simp [accept, alloc, AsyncPacket.new]
  · rw [same]
    exact h.presented
  · rw [answered_of_older reachable written older]
    exact h.returned
  · -- no call is on its way when the OS thread is at its socket
    have elsewhere := (stage_reachable reachable).1.not_transport_of_accept os
    have presents := h.presents
    have place : (s.accept r).sysc = s.sysc := rfl
    unfold Presents at presents ⊢
    rw [place, same]
    cases sysc : s.sysc with
    | transport p call => exact absurd sysc (elsewhere p call)
    | leaving | stopped => trivial
    | _ =>
      simp only [sysc] at presents
      exact presents

theorem exchanged_kernel (h : Exchanged calls s) (k : Scheduled Ptr) :
    Exchanged calls { s with sched := k, sysc := s.deliver } := by
  refine ⟨h.separate, h.untouched, h.presented, h.returned, ?_⟩
  have presents := h.presents
  unfold Presents at presents ⊢
  by_cases woken : s.sched.phase = .notify ∧ s.sched.channel.mSyscPushedEvent = true ∧
      s.sysc = .waitEvent
  · simp only [woken.2.2] at presents
    simp only [deliver, woken, and_self, if_true]
    exact presents
  · simp only [deliver, woken, if_false]
    exact presents

/-- The accepted requests, when the packet of the last one is the only one not yet written. -/
theorem accepted_of_pointers {p : Ptr}
    (pointers : s.record.accepted.map Prod.snd = s.record.written.map Prod.fst ++ [p]) :
    ∃ before q, s.record.accepted = before ++ [(q, p)] ∧
      before.map Prod.snd = s.record.written.map Prod.fst := by
  obtain ⟨before, last, split, first, second⟩ := List.map_eq_append_iff.mp pointers
  obtain ⟨r, rest, rfl, same, none⟩ := List.map_eq_cons_iff.mp second
  obtain rfl := List.map_eq_nil_iff.mp none
  exact ⟨before, r.1, by rw [split, ← same], first⟩

theorem served_of_split {before : List (Request × Ptr)} {last : Request × Ptr}
    (split : s.record.accepted = before ++ [last])
    (pointers : before.map Prod.snd = s.record.written.map Prod.fst) :
    s.served = before.map Prod.fst := by
  have length : s.record.written.length = before.length := by
    simpa using (congrArg List.length pointers).symm
  rw [served, split, List.map_append, length]
  exact List.take_left' (by simp)

/-- The packet in hand has not been written. -/
theorem unwritten_of_split {before : List (Request × Ptr)} {q : Request} {p : Ptr}
    (separate : s.Separate) (split : s.record.accepted = before ++ [(q, p)])
    (pointers : before.map Prod.snd = s.record.written.map Prod.fst) :
    p ∉ s.record.written.map Prod.fst := by
  rw [Separate, split, List.map_append, pointers] at separate
  intro written
  exact (List.nodup_append.mp separate).2.2 p written p (by simp) rfl

/-- Setting up the payload for a request. -/
theorem setupTrans_eq (trans : TlmPayload) {packet : AsyncPacket} {q : Request}
    (fields : (packet.command, packet.address, packet.dataLen) =
      (q.command, q.address.zeroExtend 64, 4))
    (data : packet.data = q.data) : setupTrans trans packet = payload trans.command q := by
  simp only [Prod.mk.injEq] at fields
  obtain ⟨command, address, length⟩ := fields
  simp [setupTrans, payload, command, address, length, data]

theorem exchanged_nbGet (reachable : machine.Reachable s) (h : Exchanged calls s)
    (sysc : s.sysc = .nbGet) : Exchanged calls s.nbGet := by
  cases (stage_reachable reachable).1 with
  | woken p os fresh _ content log =>
    obtain ⟨d, got, -⟩ := content.nbGet
    have older : ∀ q, q < s.next → s.nbGet.heap q = s.heap q := by
      intro q lt
      simp only [nbGet, got]
      exact s.alloc_heap_of_lt _ _ _ _ lt
    have accepted : s.nbGet.record.accepted = s.record.accepted := by simp only [nbGet, got]; rfl
    have written : s.nbGet.record.written = s.record.written := by simp only [nbGet, got]; rfl
    have pointers : s.record.accepted.map Prod.snd = s.record.written.map Prod.fst ++ [p] := by
      rw [log.accepted, log.returned, List.append_nil]
    obtain ⟨before, q, split, same⟩ := accepted_of_pointers pointers
    have member : (q, p) ∈ s.record.accepted := by simp [split]
    have unwritten := unwritten_of_split h.separate split same
    have command : s.trans.command = commandAfter .ignore s.served := by
      have presents := h.presents
      simpa only [Presents, sysc] using presents
    constructor
    · rw [Separate, accepted]
      exact h.separate
    · exact h.untouched.of_older reachable accepted written older
    · rw [served, accepted, written]
      exact h.presented
    · rw [answered_of_older reachable written older]
      exact h.returned
    · -- the payload is set up from the packet that was made for the request
      have packet := setupTrans_eq s.trans (fields_reachable reachable _ member).2
        (h.untouched _ member unwritten)
      have heap := s.alloc_heap_of_lt AsyncCommand.ignore.code 0 0 [] fresh
      have name : (s.heap p).command = q.command :=
        congrArg Prod.fst (fields_reachable reachable _ member).2
      unfold Presents
      by_cases exit : (s.heap p).command = AsyncCommand.exit.code
      · simp only [nbGet, got, forward, heap, exit, if_true]
      · simp only [nbGet, got, forward, heap, exit, if_false]
        refine ⟨before, q, split, same, ?_⟩
        rw [← served_of_split split same, ← command, ← name]
        exact congrArg (·, _) packet
  | idle _ sysc' | made _ _ _ sysc' | flagged _ _ _ sysc' | notified _ _ _ sysc'
  | stranded _ _ _ sysc' | served _ _ sysc' | unlocked _ _ sysc' | abandoned _ _ sysc' =>
    simp [sysc, Resting, Asleep] at sysc'
  | called _ _ _ _ sysc' | returned _ _ sysc' => simp [sysc] at sysc'

theorem exchanged_target (h : Exchanged calls s) {p : Ptr} {call : TransportCall}
    (sysc : s.sysc = .transport p call) (r : TargetReply) :
    Exchanged (calls ++ [⟨s.trans, call, r⟩]) (s.target p r) := by
  have presents := h.presents
  simp only [Presents, sysc] at presents
  obtain ⟨before, q, split, pointers, presented⟩ := presents
  have unwritten := unwritten_of_split h.separate split pointers
  have elsewhere : ∀ o, o ≠ p → (s.target p r).heap o = s.heap o := fun o other => by
    simp [target, other]
  have here : ((s.target p r).heap p).data = r.data := by
    simp [target, updatePacket, targetReturns]
  have after : (s.target p r).served = s.served ++ [q] := by
    have length : before.length = s.record.written.length := by
      simpa using congrArg List.length pointers
    rw [served_of_split split pointers]
    have whole : (before.map Prod.fst ++ [q]).length = before.length + 1 := by simp
    simp only [served, target, split, List.map_append, List.map_singleton, List.length_append,
      List.length_singleton, ← length]
    rw [← whole, List.take_length]
  constructor
  · exact h.separate
  · intro o member fresh
    simp only [target, List.map_append, List.map_singleton, List.mem_append, List.mem_singleton,
      not_or] at fresh
    rw [elsewhere _ fresh.2]
    exact h.untouched o member fresh.1
  · rw [after, payloads_append, List.map_append, h.presented, served_of_split split pointers]
    simp only [List.map_singleton, TargetCall.presented, payloads, presented]
  · have old : s.record.written.map (fun w => (w.2, ((s.target p r).heap w.1).data)) = s.answered := by
      apply List.map_congr_left
      intro w member
      have other : w.1 ≠ p := by
        rintro rfl
        exact unwritten (List.mem_map_of_mem member)
      rw [elsewhere _ other]
    have record : (s.target p r).record.written =
        s.record.written ++ [(p, statusOf r.responseStatus)] := rfl
    rw [answered, record, List.map_append, old, h.returned]
    simp [TargetCall.returned, here]
  · have command : s.trans.command = switchCommand q.command (commandAfter .ignore s.served) := by
      rw [served_of_split split pointers]
      exact congrArg (fun x => x.1.command) presented
    have place : (s.target p r).sysc = .nbPut p := rfl
    unfold Presents
    rw [place, after, commandAfter_snoc, ← command]
    rfl

/-- The rest of a round. -/
theorem exchanged_process (h : Exchanged calls s) {next : SyscPc}
    (before : ∀ p call, s.sysc ≠ .transport p call) (inside : s.sysc ≠ .leaving)
    (inside' : s.sysc ≠ .stopped) (after : (∃ p, next = .nbPut p) ∨ next = .loop ∨ next = .waitEvent)
    (heap : t.heap = s.heap) (trans : t.trans = s.trans) (sysc : t.sysc = next)
    (accepted : t.record.accepted = s.record.accepted)
    (written : t.record.written = s.record.written) : Exchanged calls t := by
  have command : s.trans.command = commandAfter .ignore s.served := by
    have presents := h.presents
    unfold Presents at presents
    cases place : s.sysc with
    | transport p call => exact absurd place (before p call)
    | leaving => exact absurd place inside
    | stopped => exact absurd place inside'
    | _ => simpa only [place] using presents
  have same : t.served = s.served := by rw [served, served, accepted, written]
  constructor
  · rw [Separate, accepted]
    exact h.separate
  · rw [Untouched, accepted, written, heap]
    exact h.untouched
  · rw [same]
    exact h.presented
  · rw [answered, written, heap]
    exact h.returned
  · unfold Presents
    rw [sysc, same, trans]
    rcases after with ⟨p, rfl⟩ | rfl | rfl <;> exact command

theorem exchanged_step {a : Action} (reachable : machine.Reachable s) (h : Exchanged calls s)
    (hs : Transition s a t) : Exchanged (calls ++ ended s a t) t := by
  cases hs with
  | target p call r sysc =>
    simp only [ended, sysc]
    exact exchanged_target h sysc r
  | accept r os => simpa only [ended, List.append_nil] using exchanged_accept reachable h os r
  | push | waitForPut | reply =>
    simp only [ended, List.append_nil]
    exact h.same rfl rfl rfl rfl rfl
  | nbPull p os =>
    simp only [ended, List.append_nil]
    unfold nbPull
    split
    · exact h.same rfl rfl rfl rfl rfl
    · exact h.same rfl rfl rfl rfl rfl
  | kernel k sched => simpa only [ended, List.append_nil] using exchanged_kernel h k
  | nbGet sysc => simpa only [ended, List.append_nil] using exchanged_nbGet reachable h sysc
  | nbPut p sysc =>
    simp only [ended, List.append_nil]
    exact exchanged_process h (by simp [sysc]) (by simp [sysc]) (by simp [sysc]) (Or.inr (Or.inl rfl))
      rfl rfl rfl rfl rfl
  | loop sysc =>
    simp only [ended, List.append_nil]
    rcases sysc with sysc | sysc <;>
      exact exchanged_process h (by simp [sysc]) (by simp [sysc]) (by simp [sysc])
        (Or.inr (Or.inr rfl)) rfl rfl rfl rfl rfl
  | stop sysc =>
    simp only [ended, List.append_nil]
    exact ⟨h.separate, h.untouched, h.presented, h.returned, trivial⟩

theorem exchanged_of_run {as : List Action} (hr : machine.run new as = some s) :
    Exchanged (callsOf as) s := by
  refine Machine.run_history (m := machine) (I := fun as s => Exchanged (callsOf as) s)
    exchanged_new ?_ hr
  intro as s a t before h step
  have snoc : callsOf (as ++ [a]) = callsOf as ++ ended s a t :=
    Machine.trace_snoc ended before step
  rw [snoc]
  exact exchanged_step ⟨as, before⟩ h (transition_of_step step)

/-! ### Both ends -/

/-- At most one request has been accepted and not passed on to the target and back. -/
theorem accepted_le_written (h : machine.Reachable s) :
    s.record.accepted.length ≤ s.record.written.length + 1 := by
  have lengths : ∀ {waiting called held unread}, s.record.Log waiting called held unread →
      s.record.accepted.length = s.record.written.length + called.length + waiting.length := by
    intro waiting called held unread log
    have made := congrArg List.length log.accepted
    rw [log.returned] at made
    simp only [List.length_map, List.length_append] at made
    exact made
  cases (stage_reachable h).1 with
  | idle _ _ _ log | made _ _ _ _ _ log | flagged _ _ _ _ _ log
  | notified _ _ _ _ _ _ log | stranded _ _ _ _ _ log | woken _ _ _ _ _ log
  | called _ _ _ _ _ _ _ log | returned _ _ _ _ _ log | served _ _ _ _ _ log | unlocked _ _ _ _ _ log
  | abandoned _ _ _ _ _ log =>
    rw [lengths log]
    simp

theorem presented_accepted {as : List Action} (hr : machine.run new as = some s) :
    (callsOf as).map TargetCall.presented <+: payloads .ignore (s.record.accepted.map Prod.fst) := by
  rw [(exchanged_of_run hr).presented]
  obtain ⟨rest, split⟩ : s.served <+: s.record.accepted.map Prod.fst := List.take_prefix _ _
  rw [← split, payloads_append]
  exact List.prefix_append _ _

theorem accepted_le_calls {as : List Action} (hr : machine.run new as = some s) :
    s.record.accepted.length ≤ (callsOf as).length + 1 := by
  have length : (callsOf as).length = s.record.written.length := by
    simpa [answered] using (congrArg List.length (exchanged_of_run hr).returned).symm
  rw [length]
  exact accepted_le_written ⟨as, hr⟩

theorem replies_returned {as : List Action} (hr : machine.run new as = some s) :
    s.replies <+: (callsOf as).map TargetCall.returned := by
  have stage := (stage_reachable ⟨as, hr⟩).1
  rw [← (exchanged_of_run hr).returned]
  exact stage.pulled_prefix.1.map _

/-- Whatever the order of the steps: the target has been called with the accepted requests in
their order, all but the last one at least, and the replies are the first answers of the
target, found in the packets that were made for the same requests. -/
theorem interface_is_transparent {as : List Action} (hr : machine.run new as = some s) :
    (callsOf as).map TargetCall.presented <+: payloads .ignore (s.record.accepted.map Prod.fst) ∧
      s.record.accepted.length ≤ (callsOf as).length + 1 ∧
      s.replies <+: (callsOf as).map TargetCall.returned ∧
      s.record.pulled.map Prod.fst <+: s.record.accepted.map Prod.snd := by
  have stage := (stage_reachable ⟨as, hr⟩).1
  obtain ⟨pulled, written⟩ := stage.pulled_prefix
  exact ⟨presented_accepted hr, accepted_le_calls hr, replies_returned hr,
    (pulled.map Prod.fst).trans written⟩

theorem interface_is_transparent_of_read :
    (callsOf servedRead).map TargetCall.presented <+:
        payloads .ignore (afterRead.record.accepted.map Prod.fst) ∧
      afterRead.record.accepted.length ≤ (callsOf servedRead).length + 1 ∧
      afterRead.replies <+: (callsOf servedRead).map TargetCall.returned ∧
      afterRead.record.pulled.map Prod.fst <+: afterRead.record.accepted.map Prod.snd :=
  interface_is_transparent (show machine.run new servedRead = some afterRead from rfl)

/-- Where the target is an object that answers each call at once, the clients are answered as
this object would answer the payloads of their requests. -/
theorem replies_of_object {σ : Type} (m : Mealy σ (TlmPayload × TransportCall) TargetReply)
    {as : List Action} (hr : machine.run new as = some s)
    (answers : (callsOf as).map TargetCall.reply =
      m.answers m.init ((callsOf as).map TargetCall.presented)) :
    s.replies <+: (m.answers m.init (payloads .ignore (s.record.accepted.map Prod.fst))).map
      fun r => (statusOf r.responseStatus, r.data) := by
  have presented := presented_accepted hr
  have replies := replies_returned hr
  have returned : (callsOf as).map TargetCall.returned =
      ((callsOf as).map TargetCall.reply).map fun r => (statusOf r.responseStatus, r.data) := by
    rw [List.map_map]
    rfl
  rw [returned, answers] at replies
  exact replies.trans ((m.answers_prefix m.init presented).map _)

/-- An object that has one answer. -/
def constant (r : TargetReply) : Mealy Unit (TlmPayload × TransportCall) TargetReply :=
  ⟨(), fun _ _ => (r, ())⟩

theorem replies_of_object_of_read :
    afterRead.replies <+:
      ((constant ⟨.ok, [1, 2, 3, 4]⟩).answers () (payloads .ignore (afterRead.record.accepted.map
        Prod.fst))).map fun r => (statusOf r.responseStatus, r.data) :=
  replies_of_object (constant ⟨.ok, [1, 2, 3, 4]⟩)
    (show machine.run new servedRead = some afterRead from rfl) rfl

/-! ### Replies that have been pulled -/

theorem exchanged_reachable (h : machine.Reachable s) : ∃ calls, Exchanged calls s := by
  obtain ⟨as, hr⟩ := h
  exact ⟨_, exchanged_of_run hr⟩

/-- A packet that has been written is not written again. -/
theorem heap_of_written (reachable : machine.Reachable s) {a : Action} (hs : Transition s a t)
    {p : Ptr} (written : p ∈ s.record.written.map Prod.fst) : t.heap p = s.heap p := by
  have old : p < s.next := older_of_written reachable written
  cases hs with
  | accept r os => exact s.alloc_heap_of_lt _ _ _ _ old
  | push | waitForPut | reply | kernel | nbPut | loop | stop => rfl
  | nbPull q os => unfold nbPull; split <;> rfl
  | nbGet sysc =>
    unfold nbGet
    split <;> exact s.alloc_heap_of_lt _ _ _ _ old
  | target q call r sysc phase =>
    obtain ⟨calls, exchanged⟩ := exchanged_reachable reachable
    have presents := exchanged.presents
    simp only [Presents, sysc] at presents
    obtain ⟨before, r, split, pointers, -⟩ := presents
    have other : p ≠ q := by
      intro same
      exact unwritten_of_split exchanged.separate split pointers (same ▸ written)
    simp [target, other]

theorem written_of_pulled (reachable : machine.Reachable s) {w : Ptr × AsyncStatus}
    (member : w ∈ s.record.pulled) : w.1 ∈ s.record.written.map Prod.fst := by
  have stage := (stage_reachable reachable).1
  exact List.mem_map_of_mem (stage.pulled_prefix.1.subset member)

theorem accepted_of_step {a : Action} (hs : Transition s a t) (other : ∀ r, a ≠ .accept r) :
    t.record.accepted = s.record.accepted := by
  cases hs with
  | accept r os => exact absurd rfl (other r)
  | nbPull p os => unfold nbPull; split <;> rfl
  | nbGet sysc => unfold nbGet; split <;> rfl
  | _ => rfl

theorem pulled_of_step {a : Action} (hs : Transition s a t) (other : a ≠ .nbPull) :
    t.record.pulled = s.record.pulled := by
  cases hs with
  | nbPull p os => exact absurd rfl other
  | nbGet sysc => unfold nbGet; split <;> rfl
  | _ => rfl

theorem replies_of_step (reachable : machine.Reachable s) {a : Action} (hs : Transition s a t)
    (other : a ≠ .nbPull) : t.replies = s.replies := by
  unfold replies
  rw [pulled_of_step hs other]
  apply List.map_congr_left
  intro w member
  rw [heap_of_written reachable hs (written_of_pulled reachable member)]

/-- What `nb_pull` yields is the reply to the request accepted last, which was no request to
leave. -/
theorem nbPull_step (reachable : machine.Reachable s) (hs : machine.step s .nbPull = some t) :
    ∃ q, t.os = .reply q ∧ t.heap = s.heap ∧ t.record.accepted = s.record.accepted ∧
      (q, (s.heap q).status) ∈ t.record.pulled ∧
      t.replies = s.replies ++ [((s.heap q).status, (s.heap q).data)] ∧
      ∃ r, s.record.accepted.getLast? = some (r, q) ∧ r.command ≠ AsyncCommand.exit.code := by
  cases transition_of_step hs with
  | nbPull p os =>
    have stage := (stage_reachable reachable).1
    obtain ⟨⟨c, pulls⟩, last, -⟩ := stage.nbPull_yields os
    have result : s.nbPull = { s with
        sched.channel := c
        os := .reply p
        record.pulled := s.record.pulled ++ [(p, (s.heap p).status)] } := by
      simp only [nbPull, pulls]
    obtain ⟨⟨r, p'⟩, accepted, same⟩ := Option.map_eq_some_iff.mp last
    obtain rfl : p' = p := same
    have stays : s.Stays p' := by
      cases stage with
      | unlocked p os' sysc stays => obtain rfl : p = p' := by simpa [os] using os'.symm
                                     exact stays
      | idle os' => simp [os] at os'
      | _ => simp_all
    have command := (keepsCommands_reachable reachable _ (List.mem_of_getLast? accepted)).2
    rw [result]
    refine ⟨p', rfl, rfl, rfl, by simp, by simp [replies], r, accepted, ?_⟩
    rw [← command]
    exact stays

/-- From the push to `nb_pull`. -/
def Serving (s : Cosim) : Prop :=
  ∃ p, s.os = .push p ∨ s.os = .waitForPut p ∨ s.os = .nbPull p

end Cosim

end ScCosim.Async
