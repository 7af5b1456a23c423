import ScCosim.Firewall.Draining
import ScCosim.Firewall.Receiving

/-!
# Which packet writes end

A word written to the packet register of a port ends its write unless it equals the word before
it at that port. A new word is denied, dropped or passed on: through the switch, to the memory
interface and, if it is a read, back as an answer. Each stretch takes a bounded number of clock
edges. A repeated word is taken off without a notification, and nothing is left of its write.
-/
namespace ScCosim.Firewall

open Kernel Async

/-- With nothing to take, a run of `interface_in` keeps the word before. -/
theorem IngressStep.run_preval {i : Port} {source : BitVec 2} {fw : Triple} {responceS : Word}
    {s : IngressStep} (empty : s.ingress.in_.held = 0) (free : s.ingress.pc.load = 0)
    (start : s.ingress.pc = .start → s.ingress.preval = 0) :
    (run i source fw responceS s).ingress.preval = s.ingress.preval := by
  have none {w : Word} {rest : Fifo Word} (read : s.ingress.in_.nbRead = some (w, rest)) : False := by
    rw [Fifo.held_of_nbRead read] at empty
    cases empty
  have spec := run_spec i source fw responceS s
  generalize run i source fw responceS s = t at spec ⊢
  cases spec with
  | reset pc => exact (start pc).symm
  | init | latch | idle | wait1 => rfl
  | repeated w rest pc seen read | hit w rest pc seen read | hitRead w rest pc seen read
  | drop w rest pc seen read | forward w rest pc seen read
  | forwardRead w rest pc seen read => exact (none read).elim
  | resumeHit pc | resumeForward f pc => simp [pc, IngressPc.load] at free

/-- A repeated word is taken off, and no more. -/
theorem IngressStep.run_repeated (i : Port) (source : BitVec 2) (fw : Triple) (responceS : Word)
    (s : IngressStep) (word : s.ingress.in_.contents = [s.ingress.preval])
    (free : s.ingress.pc.load = 0) (start : s.ingress.pc = .start → s.ingress.preval = 0) :
    let t := run i source fw responceS s
    t.inFifo = s.inFifo ∧ t.notify = s.notify ∧ t.ingress.preval = s.ingress.preval ∧
      t.ingress.pc.load = 0 ∧
      (t.ingress.in_.contents = [s.ingress.preval] ∨ t.ingress.in_.contents = []) := by
  unfold run
  cases pc : s.ingress.pc with
  | start => exact ⟨rfl, rfl, (start pc).symm, rfl, Or.inl word⟩
  | init | wait1 => exact ⟨rfl, rfl, rfl, rfl, Or.inl word⟩
  | writeHit | writeForward f => simp [pc, IngressPc.load] at free
  | loop =>
    simp only
    split
    · exact ⟨rfl, rfl, rfl, by simp [latch, pc, IngressPc.load], Or.inl word⟩
    cases read : s.ingress.in_.nbRead with
    | none => exact ⟨rfl, rfl, rfl, by simp [pc, IngressPc.load], Or.inl word⟩
    | some r =>
      obtain ⟨v, rest⟩ := r
      have contents := (Fifo.contents_of_nbRead read).1
      rw [word] at contents
      obtain ⟨same, none⟩ := List.cons.inj contents
      simp only [judge, ← same, if_true]
      exact ⟨rfl, rfl, rfl, by simp [take, pc, IngressPc.load], Or.inr none.symm⟩

namespace Device

variable {d e s : Device} {t : Transaction} {i : Port} {w v : Word}

/-! ### Into `in_i` -/

theorem in_size_of_reachable (h : machine.Reachable d) (i : Port) : (d.ingress i).in_.size = 16 := by
  refine h.invariant (I := fun d => (d.ingress i).in_.size = 16) rfl ?_
  intro d a e size hs
  cases move_of_step hs with
  | request | edge | delta => exact size
  | run q =>
    change ((d.process q).ingress i).in_.size = 16
    by_cases own : q = .interfaceIn i
    · subst own
      have same : (d.process (.interfaceIn i)).ingress i = (d.judged i).ingress := by
        simp [interfaceIn, judged]
      rw [same]
      cases d.latching_judged i with
      | reset pc fwRead preReadR in_ => rw [in_]; exact size
      | latch pc new result => rw [result]; exact size
      | take w rest outcome seen read passed fwRead preReadR in_ =>
        rw [in_, Fifo.size_of_nbRead read]
        exact size
      | stay pc keeps => rw [keeps.in_]; exact size
    by_cases write : q = .executeWriteThread
    · subst write
      obtain ⟨_, fifo, _, _, ingress, arrived⟩ := d.executeWriteThread_port i
      rw [process, ingress]
      rcases arrived with rfl | ⟨w, rfl⟩ <;> exact size
    · rw [d.process_ingress own write]
      exact size

/-- The write thread has the word `w` for `in_i`, where `v` is the word before it. -/
structure Handed (i : Port) (w v : Word) (d : Device) : Prop where
  reachable : machine.Reachable d
  client : d.bus.client = .waitWrite
  preval : (d.ingress i).preval = v
  thread : d.bus.writeThread = .notified ∧ directPort d.bus.mWriteAddress = none ∧
      writeTarget d.bus.mWriteAddress = .packet i ∧ d.bus.mRegisterWrite = w ∨
    d.bus.writeThread = .writeIn i w

theorem Handed.busy (h : Handed i w v d) : d.bus.writeThread ≠ .wait := by
  rcases h.thread with ⟨notified, -⟩ | blocked
  · simp [notified]
  · simp [blocked]

/-- The word is in `in_i`, where `v` is the word before it. -/
structure Arrived (i : Port) (w v : Word) (d : Device) : Prop where
  pending : Pending d
  word : (d.ingress i).in_.contents = [w]
  preval : (d.ingress i).preval = v

/-- The write thread finds room in `in_i`, or blocks. -/
theorem handed_writeIn (path : d.pathLoad = 0) (preval : (d.ingress i).preval = v) :
    let e := d.writeIn i w
    (e.bus.writeThread = .wait ∧ (e.ingress i).in_.contents = [w] ∨
      e.bus.writeThread = .writeIn i w) ∧
      e.bus.client = d.bus.client ∧ (e.ingress i).preval = v := by
  unfold writeIn
  have empty := Fifo.held_eq_zero.mp (ingress_empty path i).1
  split
  · exact ⟨Or.inl ⟨rfl, by simp [empty]⟩, rfl, by simpa using preval⟩
  · exact ⟨Or.inr rfl, rfl, preval⟩

/-- The write thread runs. -/
theorem handed_thread (h : Handed i w v d) (runnable : d.runnable .executeWriteThread = true) :
    Arrived i w v (d.exec .executeWriteThread) ∨ Handed i w v (d.exec .executeWriteThread) := by
  have alive : d.bus.client ≠ .thrown := by simp [h.client]
  have later : machine.Reachable (d.exec .executeWriteThread) :=
    h.reachable.step (step_iff.mpr ⟨alive, .run _ runnable⟩)
  have path := ((accounted_of_reachable h.reachable).writing h.busy).2.1
  have put : (d.exec .executeWriteThread).bus = (d.executeWriteThread).bus := rfl
  suffices after : ∃ c : Device, c.pathLoad = 0 ∧ (c.ingress i).preval = v ∧
      c.bus.client = .waitWrite ∧ d.executeWriteThread = c.writeIn i w by
    obtain ⟨c, path, preval, client, same⟩ := after
    obtain ⟨thread, client', preval'⟩ := handed_writeIn (w := w) path preval
    rw [← same] at thread client' preval'
    rcases thread with ⟨rests, word⟩ | blocked
    · exact Or.inl ⟨⟨later, client'.trans client, rests⟩, word, preval'⟩
    · exact Or.inr ⟨later, client'.trans client, preval', Or.inr blocked⟩
  rcases h.thread with ⟨notified, above, target, data⟩ | blocked
  · refine ⟨d.logServed, path, h.preval, h.client, ?_⟩
    simp [executeWriteThread, notified, decodeWrite, above, target, data]
  · exact ⟨d, path, h.preval, h.client, by simp [executeWriteThread, blocked]⟩

/-- No edge comes before the word is in `in_i`, and no other process is at it. -/
theorem handed_step {a : Action} (h : Handed i w v d) (hs : machine.step d a = some e) :
    isEdge a = false ∧ (Arrived i w v e ∨ Handed i w v e) := by
  have accounted := accounted_of_reachable h.reachable
  have path := (accounted.writing h.busy).2.1
  obtain ⟨empty, free⟩ := ingress_empty path i
  have move := move_of_step hs
  by_cases run : a = .run .executeWriteThread
  · subst run
    cases move with
    | run _ runnable => exact ⟨rfl, handed_thread h runnable⟩
  obtain ⟨client, -, thread, address⟩ := silent_step h.reachable h.client path move run
  have kept (preval : (e.ingress i).preval = (d.ingress i).preval)
      (data : e.bus.mRegisterWrite = d.bus.mRegisterWrite) : Handed i w v e := by
    refine ⟨h.reachable.step hs, client, preval.trans h.preval, ?_⟩
    rw [thread, address, data]
    exact h.thread
  cases move with
  | request t idle => simp [h.client] at idle
  | delta => exact ⟨rfl, Or.inr (kept rfl rfl)⟩
  | edge quiescent clean =>
    -- a blocked thread would find the whole FIFO free
    have rests : d.runnable .executeWriteThread = false := by
      simpa using List.all_eq_true.mp quiescent .executeWriteThread (by decide)
    have fifo : (d.ingress i).in_.update = (d.ingress i).in_ :=
      congrArg (fun d : Device => (d.ingress i).in_) (update_of_clean h.reachable clean)
    obtain ⟨written, numRead⟩ := Fifo.shown_of_update fifo
    have size := in_size_of_reachable h.reachable i
    have readable : (d.ingress i).in_.readable = [] := by
      have none := Fifo.held_eq_zero.mp empty
      exact (List.append_eq_nil_iff.mp none).1
    rcases h.thread with ⟨notified, -⟩ | blocked
    · simp [Device.runnable, notified] at rests
    · simp [Device.runnable, blocked, Fifo.numFree, written, numRead, readable, size] at rests
  | run q runnable =>
    refine ⟨rfl, Or.inr ?_⟩
    rcases clocked_or_thread q with inside | rfl | rfl | rfl
    · obtain ⟨notify, pending, bus⟩ := d.process_signal inside
      obtain ⟨r, frame⟩ := d.bus.signal_waits notify pending h.client
      rw [frame] at bus
      refine kept ?_ (by simp [exec, bus])
      by_cases own : q = .interfaceIn i
      · subst own
        rw [(d.exec_interfaceIn i).1]
        exact IngressStep.run_preval empty free (preval_of_start h.reachable i)
      · have writes : q ≠ .executeWriteThread := by rintro rfl; simp [clocked] at inside
        change ((d.process q).ingress i).preval = _
        rw [d.process_ingress own writes]
    · simp [Device.runnable, h.client] at runnable
    · exact absurd rfl run
    · have rests := (accounted.no_read (by simp [h.client])).1
      simp [Device.runnable, rests] at runnable

theorem within_handed (h : Handed i w v d) : machine.Within isEdge 1 (Arrived i w v) d := by
  refine Machine.within_of_rank (I := Handed i w v) (fun _ => 0) ?_ h
  intro d a e handed hs
  obtain ⟨quiet, arrived | kept⟩ := handed_step handed hs
  · exact Or.inl arrived
  · exact Or.inr ⟨kept, by simp [quiet]⟩

/-- The registers of the packets are decoded as such. -/
theorem decode_dWP (i : Port) : directPort (dWP i) = none ∧ writeTarget (dWP i) = .packet i ∧
    ¬ Served (dWP i) := by
  unfold Served
  revert i
  decide

theorem handed_of_request (h : machine.Reachable s) (idle : s.bus.client = .idle)
    (accepted : t.accepted = true) (write : t.command = .write) (address : t.address = dWP i) :
    Handed i t.data (s.ingress i).preval (s.request t) := by
  have requested := requested_of_request h idle accepted write
  obtain ⟨above, target, -⟩ := decode_dWP i
  refine ⟨requested.reachable, requested.client, rfl, Or.inl ⟨requested.thread, ?_, ?_, ?_⟩⟩
  · rw [requested.address, address, above]
  · rw [requested.address, address, target]
  · rw [(accounted_of_reachable h).request_write idle accepted write]

/-! ### A new word -/

theorem within_new (arrived : Arrived i w v d) (new : w ≠ v) :
    machine.Within isEdge 194 Ended d := by
  obtain ⟨pending, word, preval⟩ := arrived
  have judging := (phase_judging i w).within pending ⟨word, preval.symm ▸ new⟩ (judgeLeft_le i d)
  have entering := judging.onward (k := 84) (Q := fun e => Pending e ∧ (e.switch.inFifo i).held ≠ 0)
    (by
      rintro e ⟨pending, blocked | passed⟩
      · exact within_blocked pending blocked
      · refine Machine.within_of_now (P := fun e => Ended e ∨ Pending e ∧ (e.switch.inFifo i).held ≠ 0)
          ?_ _
        exact Or.inr ⟨pending, passed⟩)
  have crossing := entering.onward (k := 4)
    (Q := fun e => Pending e ∧ ∃ a b, (e.switch.outFifoS a b).held ≠ 0)
    (by
      rintro e ⟨pending, here⟩
      exact within_entry pending here)
  have arriving := crossing.onward (k := 4)
    (Q := fun e => Pending e ∧ ∃ k, (e.switch.outFifo k).held ≠ 0)
    (by
      rintro e ⟨pending, a, b, here⟩
      exact within_exit pending here)
  have leaving := arriving.onward (k := 8)
    (Q := fun e => Pending e ∧ ∃ k, (e.responces.responceFifo k).held ≠ 0)
    (by
      rintro e ⟨pending, k, here⟩
      have port : e.AtEgress k := by
        refine Or.inl ⟨?_, rfl⟩
        simpa [egressDirect, Egress.asDirect, Fifo.map_held] using here
      refine (within_egress pending port).imp ?_
      rintro f (ended | ⟨pending, answered⟩)
      · exact Or.inl ended
      · exact Or.inr ⟨pending, k, answered⟩)
  refine leaving.trans (k := 84) ?_
  rintro e (ended | ⟨pending, k, here⟩)
  · exact Machine.within_of_now ended _
  · exact within_answer pending here

/-! ### A repeated word -/

/-- The word has not been taken, or nothing is left of its write. -/
def Stuck (i : Port) (w : Word) (d : Device) : Prop := Handed i w w d ∨ Arrived i w w d ∨ Hung d

theorem stuck_of_arrived {a : Action} (h : Arrived i w w d) (hs : machine.step d a = some e) :
    Arrived i w w e ∨ Hung e := by
  obtain ⟨pending, word, preval⟩ := h
  have later : machine.Reachable e := pending.reachable.step hs
  have held : 0 < (d.ingress i).in_.held := by simp [Fifo.held, word]
  obtain ⟨free, -⟩ := alone pending.path held
  rcases pending.moves (move_of_step hs) with
    ⟨q, inside, rfl, runnable, rfl⟩ | ⟨rfl, quiescent, dirty, rfl⟩ | ⟨rfl, quiescent, clean, rfl⟩
  · by_cases own : q = .interfaceIn i
    · subst own
      obtain ⟨inFifo, notify, preval', pc, taken⟩ := IngressStep.run_repeated i (portBits i)
        (d.setup i).fwRange (d.responces.responceS i).cur (d.ingressStep i)
        (preval.symm ▸ word) (free i) (preval_of_start pending.reachable i)
      change (d.ingressRun i).inFifo = d.switch.inFifo i at inFifo
      change (d.ingressRun i).notify = false at notify
      have bus : (d.exec (.interfaceIn i)).bus = d.bus := by
        rw [exec, process_interfaceIn]
        change (if (d.ingressRun i).notify = true then _ else _ : Bus) = _
        rw [notify]
        rfl
      have ingress := (d.exec_interfaceIn i).1
      rcases taken with still | gone
      · refine Or.inl ⟨⟨later, by rw [bus, pending.waits], by rw [bus, pending.rests]⟩, ?_, ?_⟩
        · rw [ingress, ← preval]
          exact still
        · rw [ingress, ← preval]
          exact preval'
      · refine Or.inr ⟨later, by rw [bus, pending.waits], ?_, Or.inl (by rw [bus, pending.rests])⟩
        have sum := sum_update Ingress.load d.ingress i (d.ingressRun i).ingress
        have before : (d.ingress i).load = 1 := by
          simp [Ingress.load, Fifo.held, word, free i]
        have after : (d.ingressRun i).ingress.load = 0 := by
          have none : (d.ingressRun i).ingress.in_.held = 0 := Fifo.held_eq_zero.mpr gone
          have pc : (d.ingressRun i).ingress.pc.load = 0 := pc
          rw [Ingress.load, none, pc]
        have switch : (d.exec (.interfaceIn i)).switch = d.switch := by
          rw [exec, process_interfaceIn]
          change { d.switch with
            inFifo := Function.update d.switch.inFifo i (d.ingressRun i).inFifo } = _
          rw [inFifo, Function.update_eq_self]
        have rest : (d.exec (.interfaceIn i)).pathLoad =
            ∑ j, (Function.update d.ingress i (d.ingressRun i).ingress j).load + d.switch.load +
              ∑ k, (d.egress k).load + d.responces.load + ∑ k, (d.direct k).writeLoad := by
          rw [pathLoad, switch]
          simp only [exec, process_interfaceIn]
          rfl
        have path := pending.path
        unfold pathLoad at path
        omega
    · have writes : q ≠ .executeWriteThread := by rintro rfl; simp [clocked] at inside
      have same : (d.exec q).ingress i = d.ingress i := d.process_ingress own writes
      -- the end would have been paid for, and the word is still there
      have waits : (d.exec q).bus.client = .waitWrite := by
        by_contra other
        have path := ((accounted_of_reachable later).no_write other).2
        have none := (ingress_empty path i).1
        rw [same] at none
        omega
      rcases pending.exec inside runnable with ended | goes
      · simp [Ended, waits] at ended
      · exact Or.inl ⟨goes, by rw [same, word], by rw [same, preval]⟩
  · exact Or.inl ⟨pending.update quiescent dirty, by simpa [update] using word, preval⟩
  · exact Or.inl ⟨pending.edge quiescent clean, word, preval⟩

theorem stuck_step {a : Action} (h : Stuck i w d) (hs : machine.step d a = some e) :
    Stuck i w e := by
  rcases h with handed | arrived | hung
  · rcases (handed_step handed hs).2 with arrived | still
    · exact Or.inr (Or.inl arrived)
    · exact Or.inl still
  · rcases stuck_of_arrived arrived hs with still | hung
    · exact Or.inr (Or.inl still)
    · exact Or.inr (Or.inr hung)
  · exact Or.inr (Or.inr (hung_step hung hs))

theorem waits_of_stuck (h : Stuck i w d) : d.bus.client = .waitWrite := by
  rcases h with handed | arrived | hung
  · exact handed.client
  · exact arrived.pending.waits
  · exact hung.2.1

/-! ### All writes -/

/-- An accepted write ends exactly if its address is in a direct window or a setup register, or
it sends a packet register a word that differs from the one before. -/
theorem accepted_write_ends_iff (h : machine.Reachable s) (idle : s.bus.client = .idle)
    (accepted : t.accepted = true) (write : t.command = .write) :
    EndsWrite s t ↔ Served t.address ∨
      ∃ i, t.address = dWP i ∧ t.data ≠ (s.ingress i).preval := by
  by_cases packet : ∃ i, t.address = dWP i
  swap
  · simp only [not_exists] at packet
    rw [write_ends_iff h idle accepted write packet]
    exact ⟨Or.inl, fun either => either.resolve_right fun ⟨i, at_, _⟩ => packet i at_⟩
  obtain ⟨i, address⟩ := packet
  have handed := handed_of_request h idle accepted write address
  constructor
  · rintro ⟨-, as, e, run, ended⟩
    refine Or.inr ⟨i, address, fun same => ?_⟩
    have stuck : Stuck i t.data (s.request t) := Or.inl (same ▸ handed)
    have waits := waits_of_stuck (Machine.run_invariant (I := Stuck i t.data)
      (fun _ _ _ stuck hs => stuck_step stuck hs) stuck run)
    simp [waits] at ended
  · rintro (served | ⟨j, at_, new⟩)
    · exact absurd (address ▸ served) (decode_dWP i).2.2
    · have same : j = i := by
        have target := (decode_dWP i).2.1
        rw [← address, at_, (decode_dWP j).2.1] at target
        exact WriteTarget.packet.inj target
      subst same
      have alive : (s.request t).bus.client ≠ .thrown := by simp [handed.client]
      exact endsWrite_of_within alive ((within_handed handed).trans fun e arrived =>
        within_new arrived new)

/-- The first packet of a port, with a word that is not the initial one. -/
theorem accepted_write_ends_iff_of_seven :
    EndsWrite new ⟨.bTransport, .write, dWP 0, 7, 4, false⟩ :=
  (accepted_write_ends_iff machine.reachable_init rfl rfl rfl).mpr
    (Or.inr ⟨0, rfl, by decide⟩)

end Device

end ScCosim.Firewall
