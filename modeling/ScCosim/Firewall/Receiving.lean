import ScCosim.Firewall.Crossing

/-!
# The last process on the way

`interface_out` does with a packet what `direct_mem_out` does with a direct request, and
speaks with its receiver in the same way. Seen as a direct port, it has as many clock edges
left as one; a read ends as an answer instead.
-/
namespace ScCosim.Firewall

open Kernel

def EgressPc.asDirect : EgressPc → DirectPc
  | .start => .start
  | .init => .init
  | .loop => .loop
  | .writeResponce f => .writeResponce f.word

/-- The port as a direct port whose requests are the packets. -/
def Egress.asDirect (g : Egress) (fifo : Fifo Flit) : Direct where
  outAddress := 0
  outRead := false
  dirMemOutFifo := fifo.map Flit.word
  dirMemResponceFifo := Fifo.new internalFifoSize
  pc := g.pc.asDirect
  handshake := g.handshake

/-- The signals follow the variables, nothing is raised before the loop, and what is raised is
a write. -/
structure Egress.Tuned (g : Egress) : Prop where
  ready : g.handshake.ready.next = g.handshake.preready
  done : g.handshake.done.next = g.handshake.indone
  start : g.pc = .start → g.handshake.preready = false
  op : g.handshake.preready = true → g.isWriteOp = true

namespace Egress

variable {g : Egress} {fifo : Fifo Flit}

theorem Tuned.asDirect (h : g.Tuned) (size : fifo.size = internalFifoSize) :
    (g.asDirect fifo).Tuned := by
  refine ⟨h.ready, h.done, fun start => h.start ?_, size⟩
  unfold Egress.asDirect at start
  cases pc : g.pc <;> simp_all [EgressPc.asDirect]

theorem Tuned.receive (h : g.Tuned) : { g with handshake := g.handshake.receive }.Tuned := by
  obtain ⟨ready, done, start, op⟩ := h
  have same := Device.receive_preready g.handshake
  refine ⟨?_, g.handshake.receive_done done, fun pc => same.trans (start pc),
    fun raised => op (same.symm.trans raised)⟩
  show g.handshake.receive.ready.next = g.handshake.receive.preready
  rw [g.handshake.receive_ready.1, same]
  exact ready

end Egress

theorem Direct.edges_le (g : Direct) (memOut entry : Bool) : g.edges memOut entry ≤ 7 := by
  have phase (a b : Bool) : handshakeEdges a b ≤ 4 := by
    cases a <;> cases b <;> simp [handshakeEdges]
  have pc : g.pc.edges ≤ 2 := by cases g.pc <;> simp [DirectPc.edges]
  have first : (if memOut then g.pc.edges - 1 else g.pc.edges) ≤ 2 := by split <;> omega
  have second : (if entry || g.handshake.started then 0 else 1) ≤ 1 := by split <;> simp
  have third := phase (if memOut then g.nextPreready else g.handshake.preready)
    (if entry then g.nextIndone else g.handshake.indone)
  unfold edges
  split
  · exact Nat.zero_le _
  · omega

namespace EgressStep

variable {base : Word} {s : EgressStep}

theorem tuned_writeResponce (tuned : s.egress.Tuned) (f : Flit) :
    (s.writeResponce f).egress.Tuned := by
  rcases s.writeResponce_spec f with room | full
  · rw [room]
    exact ⟨tuned.ready, tuned.done, by simp, tuned.op⟩
  · rw [full]
    exact ⟨tuned.ready, tuned.done, by simp, tuned.op⟩

theorem run_tuned (tuned : s.egress.Tuned) : (run base s).egress.Tuned := by
  have spec := run_spec base s
  generalize run base s = t at spec ⊢
  cases spec with
  | start pc => exact ⟨tuned.ready.trans (tuned.start pc), tuned.done, fun _ => rfl, by simp⟩
  | init pc => exact ⟨tuned.ready, tuned.done, by simp, tuned.op⟩
  | rest => exact tuned
  | lower => exact ⟨rfl, tuned.done, fun _ => rfl, by simp [Handshake.lower]⟩
  | write f rest pc => exact ⟨rfl, tuned.done, by simp [EgressStep.write, pc], fun _ => rfl⟩
  | read f rest cell pc free =>
    refine tuned_writeResponce (s := { s with outFifo := rest, egress.isWriteOp := false }) ?_ _
    exact ⟨tuned.ready, tuned.done, tuned.start, by simp [free]⟩
  | resume f => exact tuned_writeResponce tuned f

/-- A run notifies, or answers a read, or is what lay ahead of a direct port. -/
theorem run_edges (base : Word) (s : EgressStep) (tuned : s.egress.Tuned) (awake : s.egress.pc.load = 0)
    (room : 0 < s.responceFifo.numFree)
    (holds : (s.egress.asDirect s.outFifo).Holds) (entry : Bool) :
    (run base s).notify = true ∨ (∃ f, (run base s).responceFifo = s.responceFifo.push f) ∨
      ((run base s).egress.asDirect (run base s).outFifo).Holds ∧
        ((run base s).egress.asDirect (run base s).outFifo).edges false entry =
          (s.egress.asDirect s.outFifo).edges true entry := by
  have counted {h : Direct} (memOut : Bool) (quiet : (memOut && h.answers) = false) :
      h.edges memOut entry =
        handshakeEdges (if memOut then h.nextPreready else h.handshake.preready)
            (if entry then h.nextIndone else h.handshake.indone) +
          (if memOut then h.pc.edges - 1 else h.pc.edges) +
          (if entry || h.handshake.started then 0 else 1) := by
    simp [Direct.edges, quiet]
  cases pc : s.egress.pc with
  | start =>
    have low := tuned.start pc
    refine Or.inr (Or.inr ⟨?_, ?_⟩)
    · rcases holds with queued | raised
      · exact Or.inl (by simpa [run, pc, Egress.asDirect] using queued)
      · simp [Egress.asDirect, low] at raised
    · rw [counted false rfl, counted true (by simp [Direct.answers, Egress.asDirect, pc,
        EgressPc.asDirect])]
      simp [run, pc, Egress.asDirect, EgressPc.asDirect, Direct.nextPreready, Direct.nextIndone,
        DirectPc.edges, low]
  | init =>
    refine Or.inr (Or.inr ⟨?_, ?_⟩)
    · simpa [run, pc, Egress.asDirect, Direct.Holds] using holds
    · rw [counted false rfl, counted true (by simp [Direct.answers, Egress.asDirect, pc,
        EgressPc.asDirect])]
      simp [run, pc, Egress.asDirect, EgressPc.asDirect, Direct.nextPreready, Direct.nextIndone,
        DirectPc.edges]
  | writeResponce f => simp [pc, EgressPc.load] at awake
  | loop =>
    cases done : s.egress.handshake.done.cur <;> cases raised : s.egress.handshake.preready
    · cases read : s.outFifo.nbRead with
      | none =>
        have still : run base s = s := by simp [run, pc, done, raised, read]
        have empty : s.outFifo.readable = [] := (Fifo.nbRead_eq_none_iff _).mp read
        refine Or.inr (Or.inr ⟨by rw [still]; exact holds, ?_⟩)
        rw [still, counted false rfl, counted true (by simp [Direct.answers, Egress.asDirect, done])]
        simp [Egress.asDirect, EgressPc.asDirect, Direct.nextPreready, Direct.nextIndone,
          DirectPc.edges, pc, raised, Fifo.map, empty]
      | some r =>
        obtain ⟨f, rest⟩ := r
        obtain ⟨-, readable, -⟩ := Fifo.contents_of_nbRead read
        by_cases op : opcode f.word = 1#2
        · -- the answer of a read finds its place
          refine Or.inr (Or.inl ⟨⟨answer f.word
            (s.mem (base + (addrOffset f.word).zeroExtend 32 - base)), f.origin⟩, ?_⟩)
          simp [run, pc, done, raised, read, op, EgressStep.read, writeResponce, room]
        · have written : run base s = EgressStep.write base { s with outFifo := rest } f := by
            simp [run, pc, done, raised, read, op]
          refine Or.inr (Or.inr ⟨?_, ?_⟩)
          · rw [written]
            exact Or.inr (by simp [EgressStep.write, Egress.asDirect, Handshake.raise])
          · rw [written, counted false rfl,
              counted true (by simp [Direct.answers, Egress.asDirect, done])]
            simp [EgressStep.write, Egress.asDirect, EgressPc.asDirect, Handshake.raise,
              Direct.nextPreready, Direct.nextIndone, DirectPc.edges, pc, done, Fifo.map, readable]
    -- one side waits for the other
    · have still : run base s = s := by simp [run, pc, done, raised]
      refine Or.inr (Or.inr ⟨by rw [still]; exact holds, ?_⟩)
      rw [still, counted false rfl, counted true (by simp [Direct.answers, Egress.asDirect, done])]
      simp [Egress.asDirect, EgressPc.asDirect, Direct.nextPreready, Direct.nextIndone,
        DirectPc.edges, pc, raised]
    · have still : run base s = s := by simp [run, pc, done, raised]
      refine Or.inr (Or.inr ⟨by rw [still]; exact holds, ?_⟩)
      rw [still, counted false rfl, counted true (by simp [Direct.answers, Egress.asDirect, raised])]
      simp [Egress.asDirect, EgressPc.asDirect, Direct.nextPreready, Direct.nextIndone,
        DirectPc.edges, pc, raised, done]
    · -- the receiver has answered
      left
      simp [run, pc, done, raised, tuned.op raised]

end EgressStep

namespace Device

variable {d e : Device} {k : Port}

/-- The port as a direct port. -/
def egressDirect (d : Device) (k : Port) : Direct := (d.egress k).asDirect (d.switch.outFifo k)

theorem exec_interfaceOut (d : Device) (k : Port) :
    let s := EgressStep.run (memBase k)
      ⟨d.egress k, d.switch.outFifo k, d.responces.responceFifo k, d.mem k, false⟩
    (d.exec (.interfaceOut k)).egress k = s.egress ∧
      (d.exec (.interfaceOut k)).switch.outFifo k = s.outFifo ∧
      (d.exec (.interfaceOut k)).responces.responceFifo k = s.responceFifo ∧
      (s.notify = true → d.bus.client = .waitWrite → (d.exec (.interfaceOut k)).Ended) := by
  simp only [exec, process_interfaceOut, interfaceOut, Function.update_self, Ended]
  refine ⟨trivial, trivial, trivial, fun notify waits => ?_⟩
  rw [if_pos notify]
  simp [Bus.notifyWriteEnded, waits]

/-- The other clocked processes are not at this port. -/
theorem process_egress {q : Proc} (out : q ≠ .interfaceOut k) (entry : q ≠ .entry k) :
    (d.process q).egress k = d.egress k := by
  cases q with
  | interfaceOut j =>
    have other : k ≠ j := by
      rintro rfl
      exact out rfl
    rw [process_interfaceOut]
    simp [interfaceOut, other]
  | entry j =>
    have other : k ≠ j := by
      rintro rfl
      exact entry rfl
    simp [process, Device.entry, other]
  | interfaceIn i => rw [process_interfaceIn]; rfl
  | entrySw j => rw [process_entrySw]
  | directMemOut j => rw [process_directMemOut]; rfl
  | setupfwRule =>
    simp only [process, setupfwRule]
    split <;> rfl
  | executeReadThread =>
    obtain ⟨_, _, _, _, same, _⟩ := d.executeReadThread_frame
    rw [process, same]
  | executeWriteThread =>
    obtain ⟨_, _, _, _, _, _, same, _⟩ := d.executeWriteThread_frame
    rw [process, same]
  | client | entryResponse | directentry => rfl

theorem egressTuned_of_reachable (h : machine.Reachable d) (k : Port) : (d.egress k).Tuned := by
  refine h.invariant (I := fun d => (d.egress k).Tuned) ⟨rfl, rfl, fun _ => rfl, by simp [machine, Device.new, Egress.new, Handshake.new]⟩ ?_
  intro d a e tuned hs
  cases move_of_step hs with
  | request | edge => exact tuned
  | delta => exact ⟨tuned.ready, tuned.done, tuned.start, tuned.op⟩
  | run q =>
    by_cases out : q = .interfaceOut k
    · subst out
      rw [(d.exec_interfaceOut k).1]
      exact EgressStep.run_tuned tuned
    by_cases entry : q = .entry k
    · subst entry
      have frame : (d.exec (.entry k)).egress k =
          { d.egress k with handshake := (d.egress k).handshake.receive } := by
        simp [exec, process, Device.entry]
      rw [frame]
      exact tuned.receive
    · change ((d.process q).egress k).Tuned
      rw [process_egress out entry]
      exact tuned

/-! ### A packet in the port -/

/-- The port has a packet, or the write that it was. -/
def AtEgress (k : Port) (d : Device) : Prop := (d.egressDirect k).Holds

/-- A bound on the clock edges before the packet is done with. -/
def egressLeft (k : Port) (d : Device) : Nat :=
  (d.egressDirect k).edges (d.ready.contains (.interfaceOut k)) (d.ready.contains (.entry k))

/-- The packet is the only piece: the process is not blocked, and there is room for an answer. -/
theorem room_of_egress (pending : Pending d) (here : d.AtEgress k) :
    (d.egress k).pc.load = 0 ∧ 0 < (d.responces.responceFifo k).numFree := by
  have path := pending.path
  have own : (d.egress k).pc.load + (d.egress k).handshake.load ≤ ∑ k, (d.egress k).load :=
    Finset.single_le_sum (f := fun k => (d.egress k).load) (fun _ _ => Nat.zero_le _)
      (Finset.mem_univ k)
  have exit := Finset.single_le_sum (f := fun k => (d.switch.outFifo k).held)
    (fun _ _ => Nat.zero_le _) (Finset.mem_univ k)
  have answer : (d.responces.responceFifo k).held ≤ d.responces.load :=
    Finset.single_le_sum (f := fun k => (d.responces.responceFifo k).held)
      (fun _ _ => Nat.zero_le _) (Finset.mem_univ k)
  have one : 1 ≤ (d.switch.outFifo k).held + (d.egress k).handshake.load := by
    rcases here with ⟨queued, -⟩ | raised
    · have queued : ((d.switch.outFifo k).map Flit.word).held ≠ 0 := queued
      rw [Fifo.map_held] at queued
      omega
    · have raised : (d.egress k).handshake.preready = true := raised
      simp [Handshake.load, raised]
  unfold pathLoad Switch.load at path
  refine ⟨by omega, (metered_responce pending.reachable k).free (by decide) (by omega)⟩

/-- The other processes at most add a packet behind the second stage. -/
theorem process_outFifo (d : Device) {p : Proc} (apart : p ≠ .interfaceOut k) :
    (d.process p).switch.outFifo k = d.switch.outFifo k ∨
      ∃ f, (d.process p).switch.outFifo k = (d.switch.outFifo k).push f := by
  cases p with
  | entrySw l =>
    have outs := (d.switch.stepOf l).run_outs
    rw [← stepOf_entrySw] at outs
    match l, k with
    | 0, _ | 1, _ => exact Or.inl rfl
    | 2, 0 => exact outs 0
    | 2, 1 => exact outs 1
    | 3, 2 => exact outs 0
    | 3, 3 => exact outs 1
    | 2, 2 | 2, 3 | 3, 0 | 3, 1 => exact Or.inl rfl
  | interfaceIn i =>
    rw [process_interfaceIn]
    exact Or.inl rfl
  | interfaceOut j =>
    have other : k ≠ j := by
      rintro rfl
      exact apart rfl
    rw [process_interfaceOut]
    exact Or.inl (by simp [interfaceOut, other])
  | _ =>
    rw [d.process_switch (by simp) (by simp) (by simp)]
    exact Or.inl rfl

/-- A packet that is added is not seen before the update. -/
theorem egress_added {g : Egress} {fifo fifo' : Fifo Flit}
    (moved : fifo' = fifo ∨ ∃ f, fifo' = fifo.push f) :
    ((g.asDirect fifo).Holds → (g.asDirect fifo').Holds) ∧
      ∀ out entry, (g.asDirect fifo').edges out entry = (g.asDirect fifo).edges out entry := by
  rcases moved with rfl | ⟨f, rfl⟩
  · exact ⟨id, fun _ _ => rfl⟩
  · refine ⟨fun holds => holds.imp_left fun queued => ⟨?_, rfl⟩, fun _ _ => rfl⟩
    simp [Egress.asDirect, Fifo.map_held]

/-- A clocked process ends the write, answers the read or leaves the packet in the port. -/
theorem egress_clocked (pending : Pending d) (here : d.AtEgress k) {p : Proc} (clock : p ∈ clocked)
    (runnable : d.runnable p = true) : (d.exec p).Ended ∨
      ((d.exec p).responces.responceFifo k).held ≠ 0 ∨
      (d.exec p).AtEgress k ∧ (d.exec p).egressLeft k ≤ d.egressLeft k := by
  obtain ⟨free, room⟩ := room_of_egress pending here
  have tuned := egressTuned_of_reachable pending.reachable k
  have nodup := ready_nodup (open_of_reachable pending.reachable)
  have ran : (d.exec p).ready.contains p = false := by
    simpa [exec] using nodup.not_mem_erase
  by_cases out : p = .interfaceOut k
  · subst out
    obtain ⟨egress, outFifo, responce, ends⟩ := d.exec_interfaceOut k
    have awake : d.blocked (.interfaceOut k) = false := by
      cases pc : (d.egress k).pc <;> simp_all [blocked, EgressPc.load]
    have ready : d.ready.contains (.interfaceOut k) = true := by
      simpa [Device.runnable, awake] using runnable
    rcases EgressStep.run_edges (memBase k) ⟨d.egress k, d.switch.outFifo k,
      d.responces.responceFifo k, d.mem k, false⟩ tuned free room here
      (d.ready.contains (.entry k)) with notify | ⟨f, push⟩ | ⟨holds, same⟩
    · exact Or.inl (ends notify pending.waits)
    · refine Or.inr (Or.inl ?_)
      rw [responce, push, Fifo.held_push]
      exact Nat.succ_ne_zero _
    · refine Or.inr (Or.inr ⟨?_, ?_⟩)
      · rw [AtEgress, egressDirect, egress, outFifo]
        exact holds
      · rw [egressLeft, egressLeft, ran, ready, d.contains_exec (by simp), egressDirect, egress,
          outFifo, same]
        exact le_refl _
  · have outFifo := d.process_outFifo out
    refine Or.inr (Or.inr ?_)
    by_cases entry : p = .entry k
    · subst entry
      have ready : d.ready.contains (.entry k) = true := by
        simpa [Device.runnable, blocked] using runnable
      have frame : (d.exec (.entry k)).egressDirect k =
          { d.egressDirect k with handshake := (d.egressDirect k).handshake.receive } := by
        simp [egressDirect, Egress.asDirect, exec, process, Device.entry]
      constructor
      · rw [AtEgress, frame]
        rcases here with queued | raised
        · exact Or.inl queued
        · exact Or.inr ((receive_preready _).trans raised)
      · rw [egressLeft, egressLeft, ran, ready, d.contains_exec (by simp), frame,
          Direct.edges_receive]
    · have egress : (d.process p).egress k = d.egress k := process_egress out entry
      obtain ⟨holds, same⟩ := egress_added (g := d.egress k) outFifo
      have view : (d.exec p).egressDirect k =
          (d.egress k).asDirect ((d.process p).switch.outFifo k) := by
        change ((d.process p).egress k).asDirect _ = _
        rw [egress]
        rfl
      constructor
      · rw [AtEgress, view]
        exact holds here
      · rw [egressLeft, egressLeft, d.contains_exec (Ne.symm out), d.contains_exec (Ne.symm entry),
          view, same]
        exact le_refl _

/-- An edge brings the end closer. -/
theorem egress_step {a : Action} (pending : Pending d) (here : d.AtEgress k)
    (hs : machine.step d a = some e) :
    e.Ended ∨ Pending e ∧ (e.responces.responceFifo k).held ≠ 0 ∨
      (Pending e ∧ e.AtEgress k) ∧ e.egressLeft k + (if isEdge a then 1 else 0) ≤ d.egressLeft k := by
  have inside : Proc.interfaceOut k ∈ clocked := (clocked_or_thread _).resolve_right (by simp)
  have entry : Proc.entry k ∈ clocked := (clocked_or_thread _).resolve_right (by simp)
  have settled (quiescent : d.quiescent = true) :
      d.egressLeft k = (d.egressDirect k).edges false false := by
    have first := not_ready_of_quiescent quiescent inside
    have second := not_ready_of_quiescent quiescent entry
    simp [egressLeft, first, second]
  rcases pending.moves (move_of_step hs) with
    ⟨p, clock, rfl, runnable, rfl⟩ | ⟨rfl, quiescent, dirty, rfl⟩ | ⟨rfl, quiescent, clean, rfl⟩
  · rcases pending.exec clock runnable with ended | goes
    · exact Or.inl ended
    rcases egress_clocked pending here clock runnable with ended | answered | ⟨still, less⟩
    · exact Or.inl ended
    · exact Or.inr (Or.inl ⟨goes, answered⟩)
    · exact Or.inr (Or.inr ⟨⟨goes, still⟩, less⟩)
  · refine Or.inr (Or.inr ⟨⟨pending.update quiescent dirty, ?_⟩, ?_⟩)
    · rcases here with ⟨queued, -⟩ | raised
      · refine Or.inl ⟨?_, rfl⟩
        simpa [egressDirect, Egress.asDirect, update, Fifo.map_held] using queued
      · exact Or.inr raised
    · -- an update takes no edge
      have first := not_ready_of_quiescent quiescent inside
      have second := not_ready_of_quiescent quiescent entry
      have left : d.update.egressLeft k = (d.egressDirect k).edges false false := by
        simp [egressLeft, update, first, second, Direct.edges, egressDirect, Egress.asDirect]
      rw [left, settled quiescent]
      exact le_refl _
  · refine Or.inr (Or.inr ⟨⟨pending.edge quiescent clean, here⟩, ?_⟩)
    have same := update_of_clean pending.reachable clean
    have tuned := (egressTuned_of_reachable pending.reachable k).asDirect
      (metered_exit pending.reachable k).size
    have free := (room_of_egress pending here).1
    have unread : (d.egressDirect k).Unread := by
      refine ⟨fun v pc => ?_, fun out => by cases out⟩
      simp only [egressDirect, Egress.asDirect] at pc
      cases at_ : (d.egress k).pc <;> simp_all [EgressPc.asDirect, EgressPc.load]
    have shown : (d.egressDirect k).Shown := by
      have egress := congrArg (fun d : Device => (d.egress k).handshake) same
      have fifo : (d.switch.outFifo k).update = d.switch.outFifo k :=
        congrArg (fun d : Device => d.switch.outFifo k) same
      obtain ⟨written, numRead⟩ := Fifo.shown_of_update fifo
      refine ⟨?_, ?_, by simp [egressDirect, Egress.asDirect, Fifo.map, written], numRead⟩
      · exact (congrArg (fun h : Handshake => h.ready.cur) egress).symm
      · exact (congrArg (fun h : Handshake => h.done.cur) egress).symm
    have closer := Direct.edges_edge here unread tuned shown
    have awake : d.blocked (.interfaceOut k) = false := by
      cases pc : (d.egress k).pc <;> simp_all [blocked, EgressPc.load]
    have left : d.edge.egressLeft k = (d.egressDirect k).edges true true := by
      have first : Proc.interfaceOut k ∈ d.edge.ready := by simp [Device.edge, inside, awake]
      have second : Proc.entry k ∈ d.edge.ready := by simp [Device.edge, entry, blocked]
      unfold egressLeft
      rw [List.contains_iff_mem.mpr first, List.contains_iff_mem.mpr second]
      rfl
    rw [left, settled quiescent]
    exact closer

/-- A packet in the port is done with in time. -/
theorem within_egress (pending : Pending d) (here : d.AtEgress k) :
    machine.Within isEdge 8 (fun e => e.Ended ∨ Pending e ∧
      (e.responces.responceFifo k).held ≠ 0) d := by
  have bound : d.egressLeft k + 1 ≤ 8 := Nat.succ_le_succ (Direct.edges_le _ _ _)
  refine Machine.Within.mono (Machine.within_of_rank (I := fun d => Pending d ∧ d.AtEgress k)
    (egressLeft k) ?_ ⟨pending, here⟩) bound
  rintro d a e ⟨pending, here⟩ hs
  rcases egress_step pending here hs with ended | answered | on
  · exact Or.inl (Or.inl ended)
  · exact Or.inl (Or.inr answered)
  · exact Or.inr on

end Device

end ScCosim.Firewall
