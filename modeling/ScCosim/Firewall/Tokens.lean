import Mathlib.Algebra.BigOperators.Fin
import Mathlib.Algebra.Order.BigOperators.Group.Finset
import ScCosim.Firewall.Ingress
import ScCosim.Firewall.Processes
import ScCosim.Firewall.Machine

/-!
# One transaction at a time

What an initiator's call has set off is counted wherever it is: in a thread, a FIFO, a
blocked process or a raised handshake. No process adds to the count, and each notification
that ends a call takes one off. So while the initiator waits there is at most one such piece
in the device, and when it does not wait there is none.
-/
namespace ScCosim.Firewall

open Kernel Async

/-! ### Counting -/

/-- A sum over a family when one member is replaced. -/
theorem sum_update {ι α : Type} [Fintype ι] [DecidableEq ι] (g : α → Nat) (f : ι → α) (i : ι)
    (a : α) : ∑ j, g (Function.update f i a j) + g (f i) = ∑ j, g (f j) + g a := by
  have split (h : ι → Nat) := Finset.add_sum_erase Finset.univ h (Finset.mem_univ i)
  have others : ∑ j ∈ Finset.univ.erase i, g (Function.update f i a j) =
      ∑ j ∈ Finset.univ.erase i, g (f j) := by
    refine Finset.sum_congr rfl fun j member => ?_
    rw [Function.update_of_ne (Finset.ne_of_mem_erase member)]
  have new := split fun j => g (Function.update f i a j)
  have old := split fun j => g (f j)
  simp only [Function.update_self] at new
  omega

def WritePc.load : WritePc → Nat
  | .wait => 0
  | .notified | .writeIn _ _ | .writeDirect _ _ => 1

def IngressPc.load : IngressPc → Nat
  | .writeHit | .writeForward _ => 1
  | .start | .init | .loop | .wait1 => 0

def EgressPc.load : EgressPc → Nat
  | .writeResponce _ => 1
  | .start | .init | .loop => 0

def DirectPc.load : DirectPc → Nat
  | .writeResponce _ => 1
  | .start | .init | .loop => 0

def Handshake.load (h : Handshake) : Nat := if h.preready then 1 else 0

def Ingress.load (g : Ingress) : Nat := g.in_.held + g.pc.load

def Egress.load (g : Egress) : Nat := g.pc.load + g.handshake.load

/-- The pieces of a direct write. -/
def Direct.writeLoad (g : Direct) : Nat :=
  (if g.outRead then 0 else g.dirMemOutFifo.held) + g.handshake.load

/-- The pieces of a direct read. -/
def Direct.readLoad (g : Direct) : Nat :=
  (if g.outRead then g.dirMemOutFifo.held else 0) + g.pc.load + g.dirMemResponceFifo.held

def Switch.load (s : Switch) : Nat :=
  ∑ i, (s.inFifo i).held + ∑ a, ∑ b, (s.outFifoS a b).held + ∑ k, (s.outFifo k).held

def Responces.load (r : Responces) : Nat := ∑ n, (r.responceFifo n).held

/-- The request of a direct read is behind the read thread. -/
def ReadPc.sent : ReadPc → Bool
  | .pending _ | .responce _ => true
  | .wait | .notified | .writeDirect _ _ => false

/-- The pieces of a write behind the write thread. -/
def Device.pathLoad (d : Device) : Nat :=
  ∑ i, (d.ingress i).load + d.switch.load + ∑ k, (d.egress k).load + d.responces.load +
    ∑ k, (d.direct k).writeLoad

/-- The pieces of a read in the direct path. -/
def Device.readLoad (d : Device) : Nat := ∑ k, (d.direct k).readLoad

/-- `m_write_ended_event` and the pieces: a notification takes one off. -/
def ended (notify : Bool) : Nat := if notify then 1 else 0

@[simp] theorem ended_true : ended true = 1 := rfl

@[simp] theorem ended_false : ended false = 0 := rfl

/-! ### One run of each process -/

theorem IngressStep.run_load (i : Port) (source : BitVec 2) (fw : Triple) (responceS : Word)
    (s : IngressStep) (quiet : s.notify = false) :
    (run i source fw responceS s).ingress.load + (run i source fw responceS s).inFifo.held +
      ended (run i source fw responceS s).notify ≤ s.ingress.load + s.inFifo.held := by
  -- the marker is the last piece of a denied read: writing it ends the call
  have hit : ∀ t : IngressStep, t.notify = false →
      t.writeHit.ingress.load + t.writeHit.inFifo.held + ended t.writeHit.notify ≤
        t.ingress.in_.held + t.inFifo.held + 1 := by
    intro t quiet
    unfold writeHit
    split
    · simp [finishHit, Ingress.load, IngressPc.load, ended]
    · simp [Ingress.load, IngressPc.load, ended, quiet]
      omega
  -- a word and the packet made of it are one piece
  have forward : ∀ (t : IngressStep) (f : Flit), t.notify = false →
      (t.writeForward f).ingress.load + (t.writeForward f).inFifo.held +
        ended (t.writeForward f).notify ≤ t.ingress.in_.held + t.inFifo.held + 1 := by
    intro t f quiet
    unfold writeForward
    split <;> simp [IngressStep.forward, Ingress.load, IngressPc.load, ended, quiet] <;> omega
  have spec := run_spec i source fw responceS s
  generalize run i source fw responceS s = t at spec ⊢
  cases spec with
  | reset pc | init pc | wait1 pc =>
    simp [reset, Ingress.load, IngressPc.load, ended, quiet, pc]
  | latch | idle => simp [latch, Ingress.load, ended, quiet]
  | repeated w rest pc seen read =>
    have taken := Fifo.held_of_nbRead read
    simp [take, Ingress.load, ended, quiet]
    omega
  | hit w rest pc seen read =>
    have taken := Fifo.held_of_nbRead read
    simp [finishHit, count, take, Ingress.load, IngressPc.load, ended]
    omega
  | drop w rest pc seen read =>
    have taken := Fifo.held_of_nbRead read
    simp [drop, count, take, Ingress.load, IngressPc.load, ended]
    omega
  | forward w rest pc seen read =>
    have taken := Fifo.held_of_nbRead read
    simp [IngressStep.forward, count, take, Ingress.load, IngressPc.load, ended, quiet]
    omega
  | hitRead w rest pc seen read =>
    have taken := Fifo.held_of_nbRead read
    have bound := hit ((s.take rest w .hit).count w) quiet
    simp only [count, take, Ingress.load] at bound ⊢
    omega
  | forwardRead w rest pc seen read =>
    have taken := Fifo.held_of_nbRead read
    have bound := forward ((s.take rest w .forwarded).count w) (s.flit i source w) quiet
    simp only [count, take, Ingress.load] at bound ⊢
    omega
  | resumeHit pc =>
    have bound := hit s quiet
    simp only [Ingress.load, pc, IngressPc.load] at bound ⊢
    omega
  | resumeForward f pc =>
    have bound := forward s f quiet
    simp only [Ingress.load, pc, IngressPc.load] at bound ⊢
    omega

def SwitchStep.load (s : SwitchStep) : Nat :=
  s.in0.held + s.in1.held + s.out0.held + s.out1.held

theorem SwitchStep.run_load (s : SwitchStep) : s.run.load ≤ s.load := by
  -- a packet written to a full output is lost, so this is no equality
  have passed : ∀ (t : SwitchStep) (f : Flit), (t.pass f).load ≤ t.load + 1 := by
    intro t f
    have first := t.out0.held_nbWrite_le (moved f)
    have second := t.out1.held_nbWrite_le (moved f)
    obtain ⟨in0, in1, out⟩ := t.pass_spec f
    unfold load
    rw [in0, in1]
    split at out <;> rw [out.1, out.2] <;> omega
  have spec := s.run_spec
  generalize s.run = t at spec ⊢
  cases spec with
  | rest => exact le_refl _
  | first f rest pc read =>
    have taken := Fifo.held_of_nbRead read
    have bound := passed { s with in0 := rest } f
    simp only [load] at bound ⊢
    omega
  | second f rest pc read =>
    have taken := Fifo.held_of_nbRead read
    have bound := passed { s with in1 := rest } f
    simp only [load] at bound ⊢
    omega

theorem EgressStep.run_load (base : Word) (s : EgressStep) (quiet : s.notify = false) :
    (run base s).egress.load + (run base s).outFifo.held + (run base s).responceFifo.held +
      ended (run base s).notify ≤ s.egress.load + s.outFifo.held + s.responceFifo.held := by
  have answer : ∀ (t : EgressStep) (f : Flit), t.notify = false →
      (t.writeResponce f).egress.load + (t.writeResponce f).outFifo.held +
        (t.writeResponce f).responceFifo.held + ended (t.writeResponce f).notify ≤
      t.egress.handshake.load + t.outFifo.held + t.responceFifo.held + 1 := by
    intro t f quiet
    rcases t.writeResponce_spec f with room | full
    · simp [room, Egress.load, EgressPc.load, ended, quiet]
      omega
    · simp [full, Egress.load, EgressPc.load, ended, quiet]
      omega
  have spec := run_spec base s
  generalize run base s = t at spec ⊢
  cases spec with
  | start pc => simp [Egress.load, EgressPc.load, Handshake.load, ended, quiet, pc]
  | init pc => simp [Egress.load, EgressPc.load, ended, quiet, pc]
  | rest => simp [ended, quiet]
  -- the handshake is lowered, and the call ends if the access was a write
  | lower pc raised =>
    have one : ended s.egress.isWriteOp ≤ 1 := by unfold ended; split <;> simp
    simp [Egress.load, Handshake.load, Handshake.lower, raised]
    omega
  | write f rest pc free read =>
    have taken := Fifo.held_of_nbRead read
    -- the packet becomes the handshake of its memory access
    simp [EgressStep.write, Egress.load, Handshake.load, Handshake.raise, ended, quiet, free]
    omega
  | read f rest cell pc free read =>
    have taken := Fifo.held_of_nbRead read
    have bound := answer { s with outFifo := rest, egress.isWriteOp := false }
      { f with word := EgressStep.answer f.word cell } quiet
    simp only [Egress.load] at bound ⊢
    omega
  | resume f pc =>
    have bound := answer s f quiet
    simp only [Egress.load, pc, EgressPc.load] at bound ⊢
    omega

theorem Responces.run_load (r : Responces) : r.run.1.load + ended r.run.2 ≤ r.load := by
  have spec := r.run_spec
  generalize r.run = t at spec ⊢
  cases spec with
  | reset | rest | marker => exact le_refl _
  -- the answer is the last piece of a read
  | answer n f rest none read =>
    have taken := Fifo.held_of_nbRead read
    have moved := sum_update Fifo.held r.responceFifo n rest
    simp only [load, publishAnswer, publish, ended, if_true]
    omega

/-- The pieces of writes and of reads separately. -/
theorem DirectStep.run_load (base : Word) (s : DirectStep) (quiet : s.notifyWrite = false) :
    (run base s).direct.writeLoad + ended (run base s).notifyWrite ≤ s.direct.writeLoad ∧
      (run base s).direct.readLoad ≤ s.direct.readLoad ∧
      (run base s).direct.outRead = s.direct.outRead := by
  have spec := run_spec base s
  generalize run base s = t at spec ⊢
  cases spec with
  | start pc | init pc =>
    simp [Direct.writeLoad, Direct.readLoad, DirectPc.load, Handshake.load, ended, quiet, pc]
  | rest => simp [ended, quiet]
  | lower pc raised =>
    simp [Direct.writeLoad, Direct.readLoad, Handshake.load, Handshake.lower, raised, ended]
  | access v rest pc free read =>
    have taken := Fifo.held_of_nbRead read
    unfold access
    split
    next out =>
      -- a read: the request becomes the answer
      have out : s.direct.outRead = true := out
      rcases writeResponce_spec { s with direct.dirMemOutFifo := rest }
        (s.mem (s.direct.outAddress - base)) with room | full
      · rw [room]
        simp [Direct.writeLoad, Direct.readLoad, DirectPc.load, ended, quiet, pc, out]
        omega
      · rw [full]
        simp [Direct.writeLoad, Direct.readLoad, DirectPc.load, ended, quiet, pc, out]
        omega
    next out =>
      -- a write: the request becomes the handshake
      have out : s.direct.outRead = false := by simpa using out
      simp [Direct.writeLoad, Direct.readLoad, Handshake.load, Handshake.raise, ended, quiet, free,
        out]
      omega
  | resume v pc =>
    rcases s.writeResponce_spec v with room | full
    · rw [room]
      simp [Direct.writeLoad, Direct.readLoad, DirectPc.load, ended, quiet, pc]
      omega
    · rw [full]
      simp [Direct.writeLoad, Direct.readLoad, DirectPc.load, ended, quiet, pc]

/-! ### What the clocked processes do to the counts -/

namespace Device

/-- A clocked process: its notification is paid for, and it adds nothing. -/
structure Pays (notify : Bool) (d e : Device) : Prop where
  bus : ∃ pending, e.bus = d.bus.signal notify pending
  write : e.pathLoad + ended notify ≤ d.pathLoad
  read : e.readLoad ≤ d.readLoad
  outRead : ∀ k, (e.direct k).outRead = (d.direct k).outRead

theorem pays_interfaceIn (d : Device) (i : Port) (source : BitVec 2) :
    ∃ notify, Pays notify d (d.interfaceIn i source) := by
  refine ⟨_, ⟨false, rfl⟩, ?_, le_refl _, fun _ => rfl⟩
  have paid := IngressStep.run_load i source (d.setup i).fwRange (d.responces.responceS i).cur
    ⟨d.ingress i, d.switch.inFifo i, d.responces.initResponceFifo i, false⟩ rfl
  have ingress := sum_update Ingress.load d.ingress i ((d.interfaceIn i source).ingress i)
  have inFifo := sum_update Fifo.held d.switch.inFifo i ((d.interfaceIn i source).switch.inFifo i)
  simp only [interfaceIn, Function.update_self] at ingress inFifo
  dsimp only at paid
  simp only [pathLoad, interfaceIn, Switch.load, Responces.load]
  omega

theorem pays_interfaceOut (d : Device) (k : Port) (base : Word) :
    ∃ notify, Pays notify d (d.interfaceOut k base) := by
  refine ⟨_, ⟨false, rfl⟩, ?_, le_refl _, fun _ => rfl⟩
  have paid := EgressStep.run_load base
    ⟨d.egress k, d.switch.outFifo k, d.responces.responceFifo k, d.mem k, false⟩ rfl
  have egress := sum_update Egress.load d.egress k ((d.interfaceOut k base).egress k)
  have outFifo := sum_update Fifo.held d.switch.outFifo k
    ((d.interfaceOut k base).switch.outFifo k)
  have responceFifo := sum_update Fifo.held d.responces.responceFifo k
    ((d.interfaceOut k base).responces.responceFifo k)
  simp only [interfaceOut, Function.update_self] at egress outFifo responceFifo
  dsimp only at paid
  simp only [pathLoad, interfaceOut, Switch.load, Responces.load]
  omega

theorem pays_directMemOut (d : Device) (k : Port) (base : Word) :
    ∃ notify, Pays notify d (d.directMemOut k base) := by
  obtain ⟨paid, reads, same⟩ := DirectStep.run_load base ⟨d.direct k, d.mem k, false, false⟩ rfl
  have write := sum_update Direct.writeLoad d.direct k ((d.directMemOut k base).direct k)
  have read := sum_update Direct.readLoad d.direct k ((d.directMemOut k base).direct k)
  simp only [directMemOut, Function.update_self] at write read
  dsimp only at paid reads same
  refine ⟨_, ⟨_, rfl⟩, ?_, ?_, fun j => ?_⟩
  · simp only [pathLoad, directMemOut]
    omega
  · simp only [readLoad, directMemOut]
    omega
  · by_cases own : j = k
    · subst own
      simpa [directMemOut] using same
    · simp [directMemOut, own]

theorem load_firstStage (s : Switch) (k : Fin 4) (a : Fin 2) {p q : Port} (other : q ≠ p) :
    (s.firstStage k a p q).load ≤ s.load := by
  have moved := SwitchStep.run_load
    ⟨s.inFifo p, s.inFifo q, s.outFifoS a 0, s.outFifoS a 1, s.pc k⟩
  have first := sum_update Fifo.held s.inFifo p ((s.firstStage k a p q).inFifo p)
  have second := sum_update Fifo.held
    (Function.update s.inFifo p ((s.firstStage k a p q).inFifo p)) q
    ((s.firstStage k a p q).inFifo q)
  have row := sum_update (fun row : Fin 2 → Fifo Flit => ∑ b, (row b).held) s.outFifoS a
    ((s.firstStage k a p q).outFifoS a)
  simp only [Switch.firstStage, Function.update_self, Function.update_of_ne other,
    Function.update_of_ne other.symm, Fin.sum_univ_two, SwitchStep.load] at moved first second row
  simp only [Switch.load, Switch.firstStage, Fin.sum_univ_two] at *
  simp at *
  omega

theorem load_secondStage (s : Switch) (k : Fin 4) (b : Fin 2) {p q : Port} (other : q ≠ p) :
    (s.secondStage k b p q).load ≤ s.load := by
  have moved := SwitchStep.run_load
    ⟨s.outFifoS 0 b, s.outFifoS 1 b, s.outFifo p, s.outFifo q, s.pc k⟩
  have first := sum_update Fifo.held s.outFifo p ((s.secondStage k b p q).outFifo p)
  have second := sum_update Fifo.held
    (Function.update s.outFifo p ((s.secondStage k b p q).outFifo p)) q
    ((s.secondStage k b p q).outFifo q)
  simp only [Switch.secondStage, Function.update_self, Function.update_of_ne other,
    Function.update_of_ne other.symm, SwitchStep.load] at moved first second
  match b with
  | 0 | 1 =>
    simp [Switch.load, Switch.secondStage, Fin.sum_univ_two]
    omega

theorem pays_of_switch {d : Device} {s : Switch} (h : s.load ≤ d.switch.load) :
    Pays false d { d with switch := s } := by
  refine ⟨⟨false, rfl⟩, ?_, le_refl _, fun _ => rfl⟩
  simp only [pathLoad, ended_false]
  omega

theorem pays_entrySw (d : Device) (k : Fin 4) : Pays false d (d.process (.entrySw k)) := by
  match k with
  | 0 => exact pays_of_switch (load_firstStage d.switch 0 0 (by decide))
  | 1 => exact pays_of_switch (load_firstStage d.switch 1 1 (by decide))
  | 2 => exact pays_of_switch (load_secondStage d.switch 2 0 (by decide))
  | 3 => exact pays_of_switch (load_secondStage d.switch 3 1 (by decide))

/-- The receiver neither raises nor lowers. -/
theorem receive_preready (h : Handshake) : h.receive.preready = h.preready := by
  unfold Handshake.receive
  split
  · split
    · split <;> rfl
    · rfl
  · rfl

/-- Every clocked process pays for its notification. -/
theorem pays_process (d : Device) {q : Proc} (clocked : q ∈ clocked) :
    ∃ notify, Pays notify d (d.process q) := by
  cases q with
  | client | executeWriteThread | executeReadThread => simp [Device.clocked] at clocked
  | setupfwRule =>
    refine ⟨false, ?_⟩
    simp only [process, setupfwRule]
    split <;> exact ⟨⟨false, rfl⟩, le_refl _, le_refl _, fun _ => rfl⟩
  | interfaceIn i =>
    rw [process_interfaceIn]
    exact d.pays_interfaceIn i _
  | interfaceOut k =>
    rw [process_interfaceOut]
    exact d.pays_interfaceOut k _
  | directMemOut k =>
    rw [process_directMemOut]
    exact d.pays_directMemOut k _
  | entrySw k => exact ⟨false, d.pays_entrySw k⟩
  | entryResponse =>
    refine ⟨_, ⟨false, rfl⟩, ?_, le_refl _, fun _ => rfl⟩
    have paid := d.responces.run_load
    simp only [pathLoad, process, entryResponse]
    omega
  | entry k =>
    refine ⟨false, ⟨false, rfl⟩, ?_, le_refl _, fun _ => rfl⟩
    have egress := sum_update Egress.load d.egress k ((d.entry k).egress k)
    -- the receiver answers the handshake but does not lower it
    have same : ((d.entry k).egress k).load = (d.egress k).load := by
      simp [entry, Egress.load, Handshake.load, receive_preready]
    simp only [entry, Function.update_self] at egress same
    simp only [pathLoad, process, entry, ended_false]
    omega
  | directentry k =>
    have write := sum_update Direct.writeLoad d.direct k ((d.directentry k).direct k)
    have read := sum_update Direct.readLoad d.direct k ((d.directentry k).direct k)
    have sameWrite : ((d.directentry k).direct k).writeLoad = (d.direct k).writeLoad := by
      simp [directentry, Direct.writeLoad, Handshake.load, receive_preready]
    have sameRead : ((d.directentry k).direct k).readLoad = (d.direct k).readLoad := by
      simp [directentry, Direct.readLoad]
    simp only [directentry, Function.update_self] at write read sameWrite sameRead
    refine ⟨false, ⟨false, rfl⟩, ?_, ?_, fun j => ?_⟩
    · simp only [pathLoad, process, directentry, ended_false]
      omega
    · simp only [readLoad, process, directentry]
      omega
    · by_cases own : j = k
      · subst own
        simp [process, directentry]
      · simp [process, directentry, own]

/-! ### The two threads -/

/-- All pieces are accounted for: one at most while the initiator waits for a write, none
while it does not, and the same for direct reads. -/
structure Accounted (d : Device) : Prop where
  write : d.bus.writeThread.load + d.pathLoad ≤ if d.bus.client = .waitWrite then 1 else 0
  read : d.bus.readThread ≠ .wait → d.bus.client = .waitRead
  sent : d.readLoad ≤ if d.bus.readThread.sent then 1 else 0
  writeDirect : ∀ k v, d.bus.writeThread = .writeDirect k v → (d.direct k).outRead = false
  readDirect : ∀ k v, d.bus.readThread = .writeDirect k v → (d.direct k).outRead = true

section accounted

variable {d e : Device}

theorem accounted_of_pays {notify : Bool} (h : Accounted d) (pays : Pays notify d e) :
    Accounted e := by
  obtain ⟨pending, bus⟩ := pays.bus
  obtain ⟨c, r, frame, woken⟩ := d.bus.signal_frame notify pending
  have client : c = if notify = true ∧ d.bus.client = .waitWrite then .notified else d.bus.client := by
    rw [← d.bus.signal_client notify pending, frame]
  rw [frame] at bus
  have writes := h.write
  have paid := pays.write
  constructor
  · rw [bus, client]
    cases notify with
    | false => simp at paid ⊢; split at writes <;> simp [*] <;> omega
    | true =>
      -- the notification was paid for, so the initiator waits for it
      have waits : d.bus.client = .waitWrite := by
        by_contra other
        rw [if_neg other] at writes
        simp at paid
        omega
      simp [waits] at writes paid ⊢
      omega
  · rw [bus, client]
    intro busy
    -- a clocked process wakes the read thread only where it waits for an answer
    have was : d.bus.readThread ≠ .wait := by
      rcases woken with same | ⟨k, was, -⟩
      · exact same ▸ busy
      · simp [was]
    simp [h.read was]
  · rw [bus]
    refine pays.read.trans (h.sent.trans ?_)
    rcases woken with same | ⟨k, was, now⟩
    · simp [same]
    · simp [was, now, ReadPc.sent]
  · intro k v at_
    rw [bus] at at_
    rw [pays.outRead]
    exact h.writeDirect k v at_
  · intro k v at_
    rw [bus] at at_
    rw [pays.outRead]
    rcases woken with same | ⟨j, was, now⟩
    · exact h.readDirect k v (same ▸ at_)
    · rw [now] at at_
      cases at_

/-- With both threads waiting and no piece in the device, all is accounted for. -/
theorem accounted_of_empty (writer : e.bus.writeThread = .wait) (reader : e.bus.readThread = .wait)
    (path : e.pathLoad = 0) (read : e.readLoad = 0) : Accounted e := by
  constructor
  · rw [writer, path]
    exact Nat.zero_le _
  · intro busy
    exact absurd reader busy
  · rw [read]
    exact Nat.zero_le _
  · simp [writer]
  · simp [reader]

theorem WritePc_load_eq_zero {pc : WritePc} : pc.load = 0 ↔ pc = .wait := by
  cases pc <;> simp [WritePc.load]

/-- While the initiator does not wait for a write there is no piece of one. -/
theorem Accounted.no_write (h : Accounted d) (other : d.bus.client ≠ .waitWrite) :
    d.bus.writeThread = .wait ∧ d.pathLoad = 0 := by
  have writes := h.write
  rw [if_neg other] at writes
  exact ⟨WritePc_load_eq_zero.mp (by omega), by omega⟩

theorem Accounted.no_read (h : Accounted d) (other : d.bus.client ≠ .waitRead) :
    d.bus.readThread = .wait ∧ d.readLoad = 0 := by
  -- a busy read thread has an initiator that waits for it
  have waits : d.bus.readThread = .wait := by
    by_contra busy
    exact other (h.read busy)
  have reads := h.sent
  simp only [waits, ReadPc.sent, Bool.false_eq_true, if_false] at reads
  exact ⟨waits, by omega⟩

/-- While the write thread is busy there is nothing else. -/
theorem Accounted.writing (h : Accounted d) (busy : d.bus.writeThread ≠ .wait) :
    d.bus.client = .waitWrite ∧ d.pathLoad = 0 ∧ d.bus.readThread = .wait ∧ d.readLoad = 0 := by
  have waits : d.bus.client = .waitWrite := by
    by_contra other
    exact busy (h.no_write other).1
  have writes := h.write
  rw [if_pos waits] at writes
  have one : d.bus.writeThread.load ≠ 0 := fun zero => busy (WritePc_load_eq_zero.mp zero)
  exact ⟨waits, by omega, h.no_read (by simp [waits])⟩

theorem Accounted.reading (h : Accounted d) (busy : d.bus.readThread ≠ .wait) :
    d.bus.client = .waitRead ∧ d.bus.writeThread = .wait ∧ d.pathLoad = 0 := by
  have waits := h.read busy
  exact ⟨waits, h.no_write (by simp [waits])⟩

/-- With no piece anywhere, `interface_in` has none. -/
theorem ingress_empty (path : d.pathLoad = 0) (i : Port) :
    (d.ingress i).in_.held = 0 ∧ (d.ingress i).pc.load = 0 := by
  have all : ∑ j, (d.ingress j).load = 0 := by
    unfold pathLoad at path
    omega
  have own : (d.ingress i).load = 0 := Finset.sum_eq_zero_iff.mp all i (Finset.mem_univ i)
  unfold Ingress.load at own
  omega

/-- With no piece anywhere, a direct port has none. -/
theorem direct_empty (path : d.pathLoad = 0) (read : d.readLoad = 0) (k : Port) :
    (d.direct k).dirMemOutFifo.held = 0 ∧ (d.direct k).handshake.preready = false := by
  have writes : ∑ j, (d.direct j).writeLoad = 0 := by
    unfold pathLoad at path
    omega
  have write : (d.direct k).writeLoad = 0 := Finset.sum_eq_zero_iff.mp writes k (Finset.mem_univ k)
  have read : (d.direct k).readLoad = 0 := Finset.sum_eq_zero_iff.mp read k (Finset.mem_univ k)
  unfold Direct.writeLoad Handshake.load at write
  unfold Direct.readLoad at read
  constructor
  · -- the fifo counts for a read or for a write, as the port is set
    cases out : (d.direct k).outRead with
    | true => simp only [out, if_true] at read; omega
    | false => simp only [out, Bool.false_eq_true, if_false] at write; omega
  · by_contra raised
    simp [raised] at write

/-- Setting the address and the direction of an empty port changes no count. -/
theorem load_setDirect (k : Port) (address : BitVec 64) (read : Bool)
    (empty : (d.direct k).dirMemOutFifo.held = 0) :
    (d.setDirect k address read).pathLoad = d.pathLoad ∧
      (d.setDirect k address read).readLoad = d.readLoad := by
  have write := sum_update Direct.writeLoad d.direct k ((d.setDirect k address read).direct k)
  have reads := sum_update Direct.readLoad d.direct k ((d.setDirect k address read).direct k)
  have sameWrite : ((d.setDirect k address read).direct k).writeLoad =
      (d.direct k).writeLoad := by
    simp [setDirect, Direct.writeLoad, empty]
  have sameRead : ((d.setDirect k address read).direct k).readLoad = (d.direct k).readLoad := by
    simp [setDirect, Direct.readLoad, empty]
  simp only [setDirect, Function.update_self] at write reads sameWrite sameRead
  constructor
  · simp only [pathLoad, setDirect]
    omega
  · simp only [readLoad, setDirect]
    omega

theorem load_writeIn (i : Port) (v : Word) :
    (d.writeIn i v).bus.writeThread.load + (d.writeIn i v).pathLoad = d.pathLoad + 1 ∧
      (d.writeIn i v).bus.client = d.bus.client ∧
      (d.writeIn i v).bus.readThread = d.bus.readThread ∧
      (d.writeIn i v).readLoad = d.readLoad ∧
      ∀ k w, (d.writeIn i v).bus.writeThread ≠ .writeDirect k w := by
  unfold writeIn
  split
  · refine ⟨?_, rfl, rfl, rfl, by simp⟩
    have sum := sum_update Ingress.load d.ingress i
      { d.ingress i with in_ := (d.ingress i).in_.push v }
    have more : Ingress.load { d.ingress i with in_ := (d.ingress i).in_.push v } =
        (d.ingress i).load + 1 := by
      simp only [Ingress.load, Fifo.held_push]
      omega
    dsimp only at sum more
    simp only [pathLoad, WritePc.load]
    omega
  · refine ⟨?_, rfl, rfl, rfl, by simp⟩
    simp only [pathLoad, WritePc.load]
    omega

theorem load_writeDirect (k : Port) (v : Word) (out : (d.direct k).outRead = false) :
    (d.writeDirect k v).bus.writeThread.load + (d.writeDirect k v).pathLoad = d.pathLoad + 1 ∧
      (d.writeDirect k v).bus.client = d.bus.client ∧
      (d.writeDirect k v).bus.readThread = d.bus.readThread ∧
      (d.writeDirect k v).readLoad = d.readLoad ∧
      ∀ j w, (d.writeDirect k v).bus.writeThread = .writeDirect j w →
        ((d.writeDirect k v).direct j).outRead = false := by
  unfold writeDirect
  split
  · have write := sum_update Direct.writeLoad d.direct k
      { d.direct k with dirMemOutFifo := (d.direct k).dirMemOutFifo.push v }
    have reads := sum_update Direct.readLoad d.direct k
      { d.direct k with dirMemOutFifo := (d.direct k).dirMemOutFifo.push v }
    have more : Direct.writeLoad
        { d.direct k with dirMemOutFifo := (d.direct k).dirMemOutFifo.push v } =
        (d.direct k).writeLoad + 1 := by
      simp [Direct.writeLoad, out]
      omega
    have same : Direct.readLoad
        { d.direct k with dirMemOutFifo := (d.direct k).dirMemOutFifo.push v } =
        (d.direct k).readLoad := by
      simp [Direct.readLoad, out]
    dsimp only at write reads more same
    refine ⟨?_, rfl, rfl, ?_, by simp⟩
    · simp only [pathLoad, WritePc.load]
      omega
    · simp only [readLoad]
      omega
  · refine ⟨?_, rfl, rfl, rfl, ?_⟩
    · simp only [pathLoad, WritePc.load]
      omega
    · intro j w at_
      cases at_
      exact out

/-- A write thread that has put its word somewhere, or holds it. -/
private theorem accounted_of_word (client : d.bus.client = .waitWrite) (path : d.pathLoad = 0)
    (reader : d.bus.readThread = .wait) (read : d.readLoad = 0)
    (load : e.bus.writeThread.load + e.pathLoad = d.pathLoad + 1 ∧
      e.bus.client = d.bus.client ∧ e.bus.readThread = d.bus.readThread ∧
      e.readLoad = d.readLoad ∧
      ∀ k w, e.bus.writeThread = .writeDirect k w → (e.direct k).outRead = false) :
    Accounted e := by
  obtain ⟨count, client', reader', read', blocked⟩ := load
  constructor
  · rw [client', client, if_pos rfl]
    omega
  · simp [reader', reader]
  · omega
  · exact blocked
  · simp [reader', reader]

theorem accounted_executeWriteThread (h : Accounted d) (busy : d.bus.writeThread ≠ .wait) :
    Accounted d.executeWriteThread := by
  obtain ⟨client, path, reader, read⟩ := h.writing busy
  unfold executeWriteThread
  cases at_ : d.bus.writeThread with
  | wait => exact absurd at_ busy
  | writeIn i v =>
    obtain ⟨count, client', reader', read', blocked⟩ := load_writeIn (d := d) i v
    exact accounted_of_word client path reader read
      ⟨count, client', reader', read', fun k w held => absurd held (blocked k w)⟩
  | writeDirect k v =>
    exact accounted_of_word client path reader read (load_writeDirect k v (h.writeDirect k v at_))
  | notified =>
    simp only [decodeWrite]
    split
    next k _ =>
      -- a direct write: the port is empty, so its direction can change
      have empty := (direct_empty path read k).1
      let f := d.logServed.setDirect k d.bus.mWriteAddress false
      obtain ⟨path', read'⟩ := load_setDirect (d := d.logServed) k d.bus.mWriteAddress false empty
      have out : (f.direct k).outRead = false := by simp [f, setDirect]
      exact accounted_of_word (d := f) client (path'.trans path) reader (read'.trans read)
        (load_writeDirect k d.bus.mRegisterWrite out)
    -- a packet write
    next =>
      split
      next i _ =>
        obtain ⟨count, client', reader', read', blocked⟩ :=
          load_writeIn (d := d.logServed) i d.bus.mRegisterWrite
        exact accounted_of_word (d := d.logServed) client path reader read
          ⟨count, client', reader', read', fun k w held => absurd held (blocked k w)⟩
      -- a setup register ends the call, an unknown address leaves nothing behind
      case h_5 => exact accounted_of_empty rfl reader path read
      all_goals
        apply accounted_of_empty
        · simp [decodeSetup, writeSetup, logServed, Bus.notifyWriteEnded, client]
        · simp [decodeSetup, writeSetup, logServed, Bus.notifyWriteEnded, client, reader]
        · exact path
        · exact read

/-- A read thread that has sent its request, or holds it. -/
theorem accounted_readDirect (client : d.bus.client = .waitRead)
    (writer : d.bus.writeThread = .wait) (path : d.pathLoad = 0) (read : d.readLoad = 0)
    (k : Port) (v : Word) (out : (d.direct k).outRead = true) : Accounted (d.readDirect k v) := by
  unfold readDirect
  split
  · have write := sum_update Direct.writeLoad d.direct k
      { d.direct k with dirMemOutFifo := (d.direct k).dirMemOutFifo.push v }
    have reads := sum_update Direct.readLoad d.direct k
      { d.direct k with dirMemOutFifo := (d.direct k).dirMemOutFifo.push v }
    have same : Direct.writeLoad
        { d.direct k with dirMemOutFifo := (d.direct k).dirMemOutFifo.push v } =
        (d.direct k).writeLoad := by
      simp [Direct.writeLoad, out]
    have more : Direct.readLoad
        { d.direct k with dirMemOutFifo := (d.direct k).dirMemOutFifo.push v } =
        (d.direct k).readLoad + 1 := by
      simp [Direct.readLoad, out]
      omega
    dsimp only at write reads more same
    refine ⟨?_, fun _ => client, ?_, by simp [writer], by simp⟩
    · simp only [pathLoad, writer, WritePc.load] at path ⊢
      omega
    · simp only [readLoad, ReadPc.sent, if_true] at read ⊢
      omega
  · refine ⟨?_, fun _ => client, read.le.trans (Nat.zero_le _), by simp [writer], ?_⟩
    · simp only [pathLoad, writer, WritePc.load] at path ⊢
      omega
    · intro j w at_
      cases at_
      exact out

/-- The end of a read leaves nothing behind. -/
theorem accounted_endRead (client : d.bus.client = .waitRead)
    (writer : d.bus.writeThread = .wait) (path : d.pathLoad = 0) (read : d.readLoad = 0)
    (v : Word) : Accounted (d.endRead v) := by
  apply accounted_of_empty
  · simp [endRead, Bus.notifyReadEnded, client, writer]
  · simp [endRead, Bus.notifyReadEnded, client]
  · exact path
  · exact read

theorem accounted_executeReadThread (h : Accounted d) (busy : d.bus.readThread ≠ .wait) :
    Accounted d.executeReadThread := by
  obtain ⟨client, writer, path⟩ := h.reading busy
  have sent := h.sent
  unfold executeReadThread
  cases at_ : d.bus.readThread with
  | wait => exact absurd at_ busy
  | pending k => exact h
  | writeDirect k v =>
    have read : d.readLoad = 0 := by simpa [at_, ReadPc.sent] using sent
    exact accounted_readDirect client writer path read k v (h.readDirect k v at_)
  | responce k =>
    simp only [readResponce]
    cases fifo : (d.direct k).dirMemResponceFifo.nbRead with
    | none => exact h
    | some r =>
      -- the answer leaves the port and the call ends
      have taken := Fifo.held_of_nbRead fifo
      let g : Direct := { d.direct k with dirMemResponceFifo := r.2 }
      have write := sum_update Direct.writeLoad d.direct k g
      have reads := sum_update Direct.readLoad d.direct k g
      have same : g.writeLoad = (d.direct k).writeLoad := rfl
      have less : g.readLoad + 1 = (d.direct k).readLoad := by
        simp only [g, Direct.readLoad]
        omega
      have read : ∑ j, (Function.update d.direct k g j).readLoad = 0 := by
        simp only [readLoad, at_, ReadPc.sent, if_true] at sent
        omega
      refine accounted_endRead (d := { d with direct := Function.update d.direct k g }) client
        writer ?_ read r.1
      simp only [pathLoad] at path
      change ∑ i, (d.ingress i).load + d.switch.load + ∑ k, (d.egress k).load +
        d.responces.load + ∑ j, (Function.update d.direct k g j).writeLoad = 0
      omega
  | notified =>
    have read : d.readLoad = 0 := by simpa [at_, ReadPc.sent] using sent
    simp only [decodeRead]
    split
    next k _ =>
      -- a direct read
      have empty := (direct_empty path read k).1
      obtain ⟨path', read'⟩ := load_setDirect (d := d) k d.bus.mReadAddress true empty
      exact accounted_readDirect (d := d.setDirect k d.bus.mReadAddress true) client writer
        (path'.trans path) (read'.trans read) k _ (by simp [setDirect])
    next => exact accounted_endRead client writer path read _

/-! ### Every step -/

/-- An accepted read finds the read thread waiting, and wakes it. -/
theorem Accounted.request_read {t : Transaction} (h : Accounted d) (idle : d.bus.client = .idle)
    (accepted : t.accepted = true) (read : t.command = .read) :
    (d.request t).bus =
      { d.bus with
        client := .waitRead
        trans := if t.call = .transportDbg then { t with data := d.bus.mRegisterRead } else t
        mReadAddress := t.address
        readThread := .notified } := by
  have reader := (h.no_read (by simp [idle])).1
  simp [request, Bus.request, accepted, read, Bus.notifyRead, reader]

/-- An accepted write finds the write thread waiting, and wakes it. -/
theorem Accounted.request_write {t : Transaction} (h : Accounted d) (idle : d.bus.client = .idle)
    (accepted : t.accepted = true) (write : t.command = .write) :
    (d.request t).bus =
      { d.bus with
        client := .waitWrite
        trans := t
        mWriteAddress := t.address
        mRegisterWrite := t.data
        writeThread := .notified } := by
  have writer := (h.no_write (by simp [idle])).1
  simp [request, Bus.request, accepted, write, Bus.notifyWrite, writer]

theorem accounted_request (h : Accounted d) (idle : d.bus.client = .idle) (t : Transaction) :
    Accounted (d.request t) := by
  obtain ⟨writer, path⟩ := h.no_write (by simp [idle])
  obtain ⟨reader, read⟩ := h.no_read (by simp [idle])
  unfold request Bus.request
  split
  · split
    · -- a read is the read thread's alone
      simp only [Bus.notifyRead, reader, if_true]
      refine ⟨?_, fun _ => rfl, read.le.trans (Nat.zero_le _), by simp [writer], by simp⟩
      simp only [writer, WritePc.load]
      exact (Nat.zero_add _).le.trans (path.le.trans (Nat.zero_le _))
    · -- the first piece of a write is the write thread's
      simp only [Bus.notifyWrite, writer, if_true]
      refine ⟨?_, by simp [reader], read.le.trans (Nat.zero_le _), by simp, by simp [reader]⟩
      simp only [WritePc.load]
      exact (Nat.add_comm ..).le.trans (Nat.add_le_add_right path.le 1)
    · exact accounted_of_empty writer reader path read
  · -- a refused call wakes nobody
    exact accounted_of_empty writer reader path read

theorem pathLoad_update : d.update.pathLoad = d.pathLoad := by
  have ingress (i : Port) : (d.update.ingress i).load = (d.ingress i).load := by
    simp [update, Ingress.load]
  have switch : d.update.switch.load = d.switch.load := by simp [update, Switch.load]
  have egress (k : Port) : (d.update.egress k).load = (d.egress k).load := rfl
  have responces : d.update.responces.load = d.responces.load := by
    simp [update, Responces.load]
  have direct (k : Port) : (d.update.direct k).writeLoad = (d.direct k).writeLoad := by
    simp only [update, Direct.writeLoad, Fifo.held_update]
    rfl
  simp only [pathLoad, ingress, switch, egress, responces, direct]

theorem accounted_update (h : Accounted d) : Accounted d.update := by
  have read : d.update.readLoad = d.readLoad := by
    simp [readLoad, update, Direct.readLoad]
  have client : ∀ c, c ≠ ClientPc.delay → c ≠ ClientPc.idle →
      (d.update.bus.client = c ↔ d.bus.client = c) := by
    intro c delay idle
    simp only [update]
    split
    next was => simp [was, delay.symm, idle.symm]
    next => rfl
  constructor
  · rw [pathLoad_update]
    simp only [client .waitWrite (by simp) (by simp)]
    exact h.write
  · intro busy
    exact (client .waitRead (by simp) (by simp)).mpr (h.read busy)
  · rw [read]
    exact h.sent
  · exact h.writeDirect
  · exact h.readDirect

theorem accounted_step {a : Action} (h : Accounted d) (hs : Move d a e) : Accounted e := by
  cases hs with
  | request t idle => exact accounted_request h idle t
  | delta => exact accounted_update h
  | edge => exact ⟨h.write, h.read, h.sent, h.writeDirect, h.readDirect⟩
  | run q runnable =>
    suffices after : Accounted (d.process q) from
      ⟨after.write, after.read, after.sent, after.writeDirect, after.readDirect⟩
    rcases clocked_or_thread q with inside | rfl | rfl | rfl
    · obtain ⟨notify, pays⟩ := d.pays_process inside
      exact accounted_of_pays h pays
    · have notified : d.bus.client = .notified := by simpa [Device.runnable] using runnable
      obtain ⟨writer, path⟩ := h.no_write (by simp [notified])
      obtain ⟨reader, read⟩ := h.no_read (by simp [notified])
      exact accounted_of_empty writer reader path read
    · refine accounted_executeWriteThread h fun rests => ?_
      simp [Device.runnable, rests] at runnable
    · refine accounted_executeReadThread h fun rests => ?_
      simp [Device.runnable, rests] at runnable

end accounted

/-- Nothing is in the device while the initiator does not wait. -/
theorem accounted_of_reachable {d : Device} (h : machine.Reachable d) : Accounted d := by
  apply h.invariant (I := Accounted)
  · apply accounted_of_empty
    · rfl
    · rfl
    · simp [machine, Device.new, pathLoad, Ingress.new, Ingress.load, IngressPc.load, Switch.new,
        Switch.load, Egress.new, Egress.load, EgressPc.load, Handshake.new, Handshake.load,
        Responces.new, Responces.load, Direct.new, Direct.writeLoad]
    · simp [machine, Device.new, readLoad, Direct.new, Direct.readLoad, DirectPc.load]
  · intro s a t accounted hs
    exact accounted_step accounted (move_of_step hs)

end Device

end ScCosim.Firewall
