import ScCosim.Firewall.Pipeline
import ScCosim.Firewall.Tokens

/-!
# Every evaluation phase ends

Each run of a process uses something up: its wake-up by the clock, its place in a full FIFO,
or a stage of a thread. So from every state, whatever the initiator does not do, the clock
can rise again, and again.
-/
namespace ScCosim.Firewall

open Kernel Async

/-! ### What is left to do in an evaluation phase -/

def ClientPc.effort : ClientPc → Nat
  | .waitWrite | .waitRead | .notified => 1
  | .idle | .delay | .thrown => 0

def WritePc.effort : WritePc → Nat
  | .notified => 2
  | .writeIn _ _ | .writeDirect _ _ => 1
  | .wait => 0

def ReadPc.effort : ReadPc → Nat
  | .notified => 3
  | .writeDirect _ _ => 2
  | .pending _ | .responce _ => 1
  | .wait => 0

def Bus.effort (b : Bus) : Nat := b.client.effort + b.writeThread.effort + b.readThread.effort

namespace Device

/-- How many clocked processes are blocked in a FIFO's `write`. -/
def stuck (d : Device) : Nat :=
  ∑ i, (d.ingress i).pc.load + ∑ k, (d.egress k).pc.load + ∑ k, (d.direct k).pc.load

/-- A bound on the runs of processes before the phase is over. -/
def effort (d : Device) : Nat := 2 * d.ready.length + d.stuck + d.bus.effort

end Device

theorem Bus.effort_signal (b : Bus) (notify pending : Bool) :
    (b.signal notify pending).effort ≤ b.effort := by
  obtain ⟨c, r, frame, woken⟩ := b.signal_frame notify pending
  have client := b.signal_client notify pending
  rw [frame] at client ⊢
  have first : c.effort ≤ b.client.effort := by
    rw [show c = _ from client]
    split
    next waits => simp [waits.2, ClientPc.effort]
    next => exact le_refl _
  -- a read thread that is woken has one run to go, as while it waited
  have second : r.effort = b.readThread.effort := by
    rcases woken with same | ⟨k, was, is⟩
    · rw [same]
    · simp [was, is, ReadPc.effort]
  simp only [effort]
  omega

/-! ### Blocked processes -/

theorem IngressPc.load_le (pc : IngressPc) : pc.load ≤ 1 := by
  cases pc <;> simp [IngressPc.load]

theorem EgressPc.load_le (pc : EgressPc) : pc.load ≤ 1 := by
  cases pc <;> simp [EgressPc.load]

theorem DirectPc.load_le (pc : DirectPc) : pc.load ≤ 1 := by
  cases pc <;> simp [DirectPc.load]

namespace Device

variable (d : Device)

/-- A blocked process that finds room is no longer blocked. -/
private theorem judged_unblocks (i : Port) (blocked : d.blocked (.interfaceIn i) = true)
    (room : d.hasRoom (.interfaceIn i) = true) :
    (d.judged i).ingress.pc.load = 0 ∧ (d.ingress i).pc.load = 1 := by
  have room : 0 < (d.responces.initResponceFifo i).numFree := by simpa [hasRoom] using room
  -- only a process blocked in `write` is not woken by the clock
  cases pc : (d.ingress i).pc with
  | writeHit =>
    simp [judged, IngressStep.run, pc, IngressStep.writeHit, room, IngressStep.finishHit,
      IngressPc.load]
  | writeForward f =>
    simp [judged, IngressStep.run, pc, IngressStep.writeForward, room, IngressStep.forward,
      IngressPc.load]
  | _ => simp [Device.blocked, pc] at blocked

theorem stuck_interfaceIn (i : Port) :
    (d.interfaceIn i (portBits i)).stuck ≤ d.stuck + 1 ∧
      (d.blocked (.interfaceIn i) = true → d.hasRoom (.interfaceIn i) = true →
        (d.interfaceIn i (portBits i)).stuck + 1 ≤ d.stuck) := by
  have sum := sum_update (fun g : Ingress => g.pc.load) d.ingress i (d.judged i).ingress
  have most := (d.judged i).ingress.pc.load_le
  have same : (d.interfaceIn i (portBits i)).stuck + ∑ j, (d.ingress j).pc.load =
      d.stuck + ∑ j, (Function.update d.ingress i (d.judged i).ingress j).pc.load := by
    simp only [stuck, interfaceIn, judged]
    omega
  refine ⟨by omega, fun blocked room => ?_⟩
  obtain ⟨free, held⟩ := d.judged_unblocks i blocked room
  omega

theorem stuck_interfaceOut (k : Port) (base : Word) :
    (d.interfaceOut k base).stuck ≤ d.stuck + 1 ∧
      (d.blocked (.interfaceOut k) = true → d.hasRoom (.interfaceOut k) = true →
        (d.interfaceOut k base).stuck + 1 ≤ d.stuck) := by
  let s := EgressStep.run base
    ⟨d.egress k, d.switch.outFifo k, d.responces.responceFifo k, d.mem k, false⟩
  have sum := sum_update (fun g : Egress => g.pc.load) d.egress k s.egress
  have most := s.egress.pc.load_le
  have same : (d.interfaceOut k base).stuck + ∑ j, (d.egress j).pc.load =
      d.stuck + ∑ j, (Function.update d.egress k s.egress j).pc.load := by
    simp only [stuck, interfaceOut, s]
    omega
  refine ⟨by omega, fun blocked room => ?_⟩
  have room : 0 < (d.responces.responceFifo k).numFree := by simpa [hasRoom] using room
  cases pc : (d.egress k).pc with
  | writeResponce f =>
    have free : s.egress.pc.load = 0 := by
      simp [s, EgressStep.run, pc, EgressStep.writeResponce, room, EgressPc.load]
    have held : (d.egress k).pc.load = 1 := by simp [pc, EgressPc.load]
    omega
  | _ => simp [Device.blocked, pc] at blocked

theorem stuck_directMemOut (k : Port) (base : Word) :
    (d.directMemOut k base).stuck ≤ d.stuck + 1 ∧
      (d.blocked (.directMemOut k) = true → d.hasRoom (.directMemOut k) = true →
        (d.directMemOut k base).stuck + 1 ≤ d.stuck) := by
  let s := DirectStep.run base ⟨d.direct k, d.mem k, false, false⟩
  have sum := sum_update (fun g : Direct => g.pc.load) d.direct k s.direct
  have most := s.direct.pc.load_le
  have same : (d.directMemOut k base).stuck + ∑ j, (d.direct j).pc.load =
      d.stuck + ∑ j, (Function.update d.direct k s.direct j).pc.load := by
    simp only [stuck, directMemOut, s]
    omega
  refine ⟨by omega, fun blocked room => ?_⟩
  have room : 0 < (d.direct k).dirMemResponceFifo.numFree := by simpa [hasRoom] using room
  cases pc : (d.direct k).pc with
  | writeResponce v =>
    have free : s.direct.pc.load = 0 := by
      simp [s, DirectStep.run, pc, DirectStep.writeResponce, room, DirectPc.load]
    have held : (d.direct k).pc.load = 1 := by simp [pc, DirectPc.load]
    omega
  | _ => simp [Device.blocked, pc] at blocked

/-- A clocked process blocks at most itself, and unblocks itself when it finds room. -/
theorem stuck_process {q : Proc} (inside : q ∈ clocked) :
    (d.process q).stuck ≤ d.stuck + 1 ∧
      (d.blocked q = true → d.hasRoom q = true → (d.process q).stuck + 1 ≤ d.stuck) := by
  have free : ∀ {e : Device}, e.stuck = d.stuck → d.blocked q = false →
      e.stuck ≤ d.stuck + 1 ∧ (d.blocked q = true → d.hasRoom q = true → e.stuck + 1 ≤ d.stuck) :=
    fun same free => ⟨by omega, fun blocked => by simp [free] at blocked⟩
  cases q with
  | client | executeWriteThread | executeReadThread => simp [clocked] at inside
  | interfaceIn i =>
    rw [process_interfaceIn]
    exact d.stuck_interfaceIn i
  | interfaceOut k =>
    rw [process_interfaceOut]
    exact d.stuck_interfaceOut k _
  | directMemOut k =>
    rw [process_directMemOut]
    exact d.stuck_directMemOut k _
  | entrySw k => exact free (by rw [process_entrySw]; rfl) rfl
  | entryResponse => exact free rfl rfl
  | setupfwRule =>
    refine free ?_ rfl
    simp only [process, setupfwRule]
    split <;> rfl
  | entry k =>
    have sum := sum_update (fun g : Egress => g.pc.load) d.egress k ((d.entry k).egress k)
    simp only [entry, Function.update_self] at sum
    refine free ?_ rfl
    simp only [stuck, process, entry]
    omega
  | directentry k =>
    have sum := sum_update (fun g : Direct => g.pc.load) d.direct k ((d.directentry k).direct k)
    simp only [directentry, Function.update_self] at sum
    refine free ?_ rfl
    simp only [stuck, process, directentry]
    omega

/-! ### Every run of a process -/

/-- The threads block no clocked process. -/
theorem stuck_threads : d.executeWriteThread.stuck = d.stuck ∧
    d.executeReadThread.stuck = d.stuck := by
  have write (k : Port) := (d.executeWriteThread_direct k).pc
  have read (k : Port) := (d.executeReadThread_direct k).pc
  have ingress (i : Port) : (d.executeWriteThread.ingress i).pc = (d.ingress i).pc := by
    obtain ⟨_, fifo, _, _, same, _⟩ := d.executeWriteThread_port i
    rw [same]
  have egress : d.executeWriteThread.egress = d.egress := by
    obtain ⟨_, _, _, _, _, _, same, _⟩ := d.executeWriteThread_frame
    rw [same]
  obtain ⟨_, _, _, direct, same, _⟩ := d.executeReadThread_frame
  refine ⟨by simp only [stuck, write, ingress, egress], ?_⟩
  simp only [stuck, read]
  rw [same]

theorem effort_executeWriteThread (runnable : d.runnable .executeWriteThread = true) :
    d.executeWriteThread.bus.effort < d.bus.effort := by
  have writeIn (d : Device) (i : Port) (v : Word) :
      (d.writeIn i v).bus.effort ≤ d.bus.client.effort + 1 + d.bus.readThread.effort := by
    unfold Device.writeIn
    split <;> simp [Bus.effort, WritePc.effort]
  have writeDirect (d : Device) (k : Port) (v : Word) :
      (d.writeDirect k v).bus.effort ≤ d.bus.client.effort + 1 + d.bus.readThread.effort := by
    unfold Device.writeDirect
    split <;> simp [Bus.effort, WritePc.effort]
  unfold executeWriteThread
  cases at_ : d.bus.writeThread with
  | wait => simp [Device.runnable, at_] at runnable
  | writeIn i v =>
    have room : 0 < (d.ingress i).in_.numFree := by simpa [Device.runnable, at_] using runnable
    simp [Device.writeIn, room, Bus.effort, WritePc.effort, at_]
  | writeDirect k v =>
    have room : 0 < (d.direct k).dirMemOutFifo.numFree := by
      simpa [Device.runnable, at_] using runnable
    simp [Device.writeDirect, room, Bus.effort, WritePc.effort, at_]
  | notified =>
    -- a new request: one run to decode it, and one more if it blocks
    have budget : d.bus.effort = d.bus.client.effort + 2 + d.bus.readThread.effort := by
      simp [Bus.effort, at_, WritePc.effort]
    simp only [decodeWrite]
    split
    next k _ =>
      have bound := writeDirect (d.logServed.setDirect k d.bus.mWriteAddress false) k
        d.bus.mRegisterWrite
      simp only [setDirect, logServed] at bound ⊢
      omega
    next =>
      split
      next i _ =>
        have bound := writeIn d.logServed i d.bus.mRegisterWrite
        simp only [logServed] at bound ⊢
        omega
      -- an unknown address: the thread waits again, and nobody is told
      case h_5 => simp [Bus.effort, logServed, WritePc.effort, at_]
      all_goals
        simp only [decodeSetup, writeSetup, Bus.notifyWriteEnded]
        split
        next waits => simp_all [Bus.effort, logServed, WritePc.effort, ClientPc.effort]
        next => simp [Bus.effort, logServed, WritePc.effort, at_]

theorem effort_executeReadThread (runnable : d.runnable .executeReadThread = true) :
    d.executeReadThread.bus.effort < d.bus.effort := by
  have ends (d : Device) (v : Word) :
      (d.endRead v).bus.effort ≤ d.bus.client.effort + d.bus.writeThread.effort := by
    unfold endRead Bus.notifyReadEnded
    split
    next waits => simp_all [Bus.effort, ReadPc.effort, ClientPc.effort]
    next => simp [Bus.effort, ReadPc.effort]
  unfold executeReadThread
  cases at_ : d.bus.readThread with
  | wait | pending => simp [Device.runnable, at_] at runnable
  | writeDirect k v =>
    have room : 0 < (d.direct k).dirMemOutFifo.numFree := by
      simpa [Device.runnable, at_] using runnable
    simp [readDirect, room, Bus.effort, ReadPc.effort, at_]
  | responce k =>
    have some : 0 < (d.direct k).dirMemResponceFifo.numAvailable := by
      simpa [Device.runnable, at_] using runnable
    simp only [readResponce]
    split
    next none =>
      rw [Fifo.nbRead_eq_none_iff] at none
      simp [Fifo.numAvailable, none] at some
    next v fifo _ =>
      have bound := ends { d with
        direct := Function.update d.direct k { d.direct k with dirMemResponceFifo := fifo } } v
      have budget : d.bus.effort = d.bus.client.effort + d.bus.writeThread.effort + 1 := by
        simp [Bus.effort, at_, ReadPc.effort]
      rw [budget]
      exact Nat.lt_succ_of_le bound
  | notified =>
    -- a new request: it is decoded, it may block, and it waits for the answer
    have budget : d.bus.effort = d.bus.client.effort + d.bus.writeThread.effort + 3 := by
      simp [Bus.effort, at_, ReadPc.effort]
    simp only [decodeRead]
    split
    next k _ =>
      simp only [readDirect]
      split <;> simp [Bus.effort, setDirect, ReadPc.effort, at_]
    next => exact Nat.lt_of_le_of_lt (ends d _) (by omega)

/-- A run of a process uses something up. -/
theorem effort_run {q : Proc} (runnable : d.runnable q = true) :
    (d.exec q).effort < d.effort := by
  have shorter : (d.ready.erase q).length ≤ d.ready.length := List.length_erase_le
  rcases clocked_or_thread q with inside | rfl | rfl | rfl
  · obtain ⟨notify, pending, bus⟩ := d.process_signal inside
    have signal := d.bus.effort_signal notify pending
    obtain ⟨most, unblocked⟩ := d.stuck_process inside
    rw [← bus] at signal
    have same : (d.exec q).effort =
        2 * (d.ready.erase q).length + (d.process q).stuck + (d.process q).bus.effort := rfl
    unfold effort at same ⊢
    -- a woken process may block itself: its wake-up counts twice
    by_cases ready : q ∈ d.ready
    · have less := List.length_erase_of_mem ready
      have some := List.length_pos_of_mem ready
      omega
    · -- it was blocked, and finds room
      have blocked : d.blocked q = true ∧ d.hasRoom q = true := by
        cases q with
        | client | executeWriteThread | executeReadThread => simp [clocked] at inside
        | _ => simpa [Device.runnable, ready] using runnable
      have fewer := unblocked blocked.1 blocked.2
      omega
  · -- the call of the initiator returns
    have notified : d.bus.client = .notified := by simpa [Device.runnable] using runnable
    simp only [effort, exec, process, Bus.returns, Bus.finish, Bus.effort, notified,
      ClientPc.effort, stuck]
    omega
  · have less := d.effort_executeWriteThread runnable
    have same := d.stuck_threads.1
    simp only [effort, exec, process]
    unfold stuck at same ⊢
    simp only at same ⊢
    omega
  · have less := d.effort_executeReadThread runnable
    have same := d.stuck_threads.2
    simp only [effort, exec, process]
    unfold stuck at same ⊢
    simp only at same ⊢
    omega

/-! ### The clock can always rise again -/

/-- No process throws. -/
theorem alive_run {q : Proc} (alive : d.bus.client ≠ .thrown) :
    (d.exec q).bus.client ≠ .thrown := by
  suffices kept : (d.process q).bus.client ≠ .thrown from kept
  rcases clocked_or_thread q with inside | rfl | rfl | rfl
  · obtain ⟨notify, pending, bus⟩ := d.process_signal inside
    rw [bus, d.bus.signal_client]
    split
    · simp
    · exact alive
  · simp [process, Bus.returns, Bus.finish]
  · obtain ⟨client, _, _, _, _, _, same, woken⟩ := d.executeWriteThread_frame
    rw [process, same]
    rcases woken with rfl | rfl
    · exact alive
    · simp
  · obtain ⟨client, _, _, _, same, woken⟩ := d.executeReadThread_frame
    rw [process, same]
    rcases woken with rfl | rfl
    · exact alive
    · simp

/-- An update leaves as much to do as there was. -/
theorem effort_update : d.update.effort = d.effort := by
  have client : d.update.bus.client.effort = d.bus.client.effort := by
    simp only [update]
    split
    next delay => simp [delay, ClientPc.effort]
    next => rfl
  unfold effort Bus.effort
  rw [client]
  rfl

def isEdge : Action → Bool
  | .edge => true
  | .run _ | .request _ | .delta => false

/-- The processes can run until the next edge. -/
theorem exists_run_to_edge (alive : d.bus.client ≠ .thrown) :
    ∃ as e, machine.run d as = some e ∧ e.bus.client ≠ .thrown ∧ e.quiescent = true ∧
      e.dirty = false := by
  -- by induction on what is left to do, an update counting less than any run
  induction left : 2 * d.effort + (if d.dirty then 1 else 0) using Nat.strong_induction_on
    generalizing d with
  | _ n ih =>
    have first : ∀ {a : Action} {r : Device}, machine.step d a = some r →
        r.bus.client ≠ .thrown → 2 * r.effort + (if r.dirty then 1 else 0) < n →
        ∃ as e, machine.run d as = some e ∧ e.bus.client ≠ .thrown ∧ e.quiescent = true ∧
          e.dirty = false := by
      intro a r step alive less
      obtain ⟨as, e, run, rest⟩ := ih _ less r alive rfl
      exact ⟨a :: as, e, (machine.run_cons_iff _ _ _ _).mpr ⟨r, step, run⟩, rest⟩
    by_cases quiescent : d.quiescent = true
    · cases dirty : d.dirty with
      | false => exact ⟨[], d, rfl, alive, quiescent, dirty⟩
      | true =>
        refine first (step_iff.mpr ⟨alive, .delta quiescent dirty⟩) ?_ ?_
        · simp only [update]
          split
          · simp
          · exact alive
        · have same := d.effort_update
          simp only [dirty, if_true] at left
          simp only [update] at same ⊢
          simp only [same, Bool.false_eq_true, if_false]
          omega
    · have some : ∃ q ∈ procs, d.runnable q = true := by
        simpa [Device.quiescent] using quiescent
      obtain ⟨q, _, runnable⟩ := some
      have less := d.effort_run runnable
      refine first (step_iff.mpr ⟨alive, .run q runnable⟩) (d.alive_run alive) ?_
      simp only [exec, if_true] at less ⊢
      omega

/-- From a state without an exception there are runs with any number of clock edges. -/
theorem exists_run_edges (alive : d.bus.client ≠ .thrown) (n : Nat) :
    ∃ as e, machine.run d as = some e ∧ n ≤ as.countP isEdge := by
  suffices more : ∃ as e, machine.run d as = some e ∧ e.bus.client ≠ .thrown ∧
      n ≤ as.countP isEdge by
    obtain ⟨as, e, run, _, enough⟩ := more
    exact ⟨as, e, run, enough⟩
  induction n with
  | zero => exact ⟨[], d, rfl, alive, Nat.zero_le _⟩
  | succ n ih =>
    obtain ⟨as, e, run, alive, enough⟩ := ih
    obtain ⟨bs, f, run', alive', quiescent, clean⟩ := e.exists_run_to_edge alive
    -- one more edge after the phase is over
    have step := step_iff.mpr ⟨alive', Move.edge quiescent clean⟩
    refine ⟨as ++ (bs ++ [.edge]), f.edge, ?_, alive', ?_⟩
    · exact (machine.run_append_iff _ _ _ _).mpr
        ⟨e, run, (machine.run_snoc_iff _ _ _ _).mpr ⟨f, run', step⟩⟩
    · simp only [List.countP_append, List.countP_singleton, isEdge, if_true]
      omega

end Device

end ScCosim.Firewall
