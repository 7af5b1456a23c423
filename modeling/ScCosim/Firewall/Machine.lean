import ScCosim.Kernel.Machine
import ScCosim.Firewall.Network

/-!
# The device under the kernel

In an evaluation phase any runnable process can run next, to its next wait. When none is
runnable, the channels are updated if anything has run since the last update, and otherwise
the clock can rise. The initiator starts a transaction when it has none. In the open machine
words can also arrive in the FIFOs `in_i` at any time, whatever the initiator does.
-/
namespace ScCosim.Firewall

open Kernel Async

namespace Device

/-- Blocked in a FIFO's `write`: such a process does not wait for the clock. -/
def blocked (d : Device) : Proc → Bool
  | .interfaceIn i =>
    match (d.ingress i).pc with
    | .writeHit | .writeForward _ => true
    | _ => false
  | .interfaceOut k =>
    match (d.egress k).pc with
    | .writeResponce _ => true
    | _ => false
  | .directMemOut k =>
    match (d.direct k).pc with
    | .writeResponce _ => true
    | _ => false
  | _ => false

/-- The FIFO that a blocked process waits for has a free place. -/
def hasRoom (d : Device) : Proc → Bool
  | .interfaceIn i => 0 < (d.responces.initResponceFifo i).numFree
  | .interfaceOut k => 0 < (d.responces.responceFifo k).numFree
  | .directMemOut k => 0 < (d.direct k).dirMemResponceFifo.numFree
  | _ => false

def runnable (d : Device) : Proc → Bool
  | .client => d.bus.client == .notified
  | .executeWriteThread =>
    match d.bus.writeThread with
    | .wait => false
    | .notified => true
    | .writeIn i _ => 0 < (d.ingress i).in_.numFree
    | .writeDirect k _ => 0 < (d.direct k).dirMemOutFifo.numFree
  | .executeReadThread =>
    match d.bus.readThread with
    | .wait | .pending _ => false
    | .notified => true
    | .writeDirect k _ => 0 < (d.direct k).dirMemOutFifo.numFree
    | .responce k => 0 < (d.direct k).dirMemResponceFifo.numAvailable
  | p => d.ready.contains p || (d.blocked p && d.hasRoom p)

/-- The processes that are sensitive to `CLK.pos()`. -/
def clocked : List Proc :=
  [.interfaceIn 0, .interfaceIn 1, .interfaceIn 2, .interfaceIn 3, .setupfwRule,
    .interfaceOut 0, .interfaceOut 1, .interfaceOut 2, .interfaceOut 3,
    .entrySw 0, .entrySw 1, .entrySw 2, .entrySw 3, .entryResponse,
    .directMemOut 0, .directMemOut 1, .directMemOut 2, .directMemOut 3,
    .entry 0, .directentry 0, .entry 1, .directentry 1,
    .entry 2, .directentry 2, .entry 3, .directentry 3]

theorem clocked_or_thread (q : Proc) :
    q ∈ clocked ∨ q = .client ∨ q = .executeWriteThread ∨ q = .executeReadThread := by
  cases q with
  | client | executeWriteThread | executeReadThread => simp
  | setupfwRule | entryResponse => simp [clocked]
  | interfaceIn i | interfaceOut i | entrySw i | directMemOut i | entry i | directentry i =>
    left
    revert i
    decide

def procs : List Proc := [.client, .executeWriteThread, .executeReadThread] ++ clocked

/-- No process is runnable: the evaluation phase is over. -/
def quiescent (d : Device) : Bool := procs.all fun p => !d.runnable p

/-- What a process does from one wait to the next. -/
def process (d : Device) : Proc → Device
  | .client => { d with bus := d.bus.returns }
  | .executeWriteThread => d.executeWriteThread
  | .executeReadThread => d.executeReadThread
  | .setupfwRule => d.setupfwRule
  | .interfaceIn 0 => d.interfaceIn0
  | .interfaceIn 1 => d.interfaceIn1
  | .interfaceIn 2 => d.interfaceIn2
  | .interfaceIn 3 => d.interfaceIn3
  | .interfaceOut 0 => d.interfaceOut0
  | .interfaceOut 1 => d.interfaceOut1
  | .interfaceOut 2 => d.interfaceOut2
  | .interfaceOut 3 => d.interfaceOut3
  | .entrySw 0 => d.entrySw1
  | .entrySw 1 => d.entrySw2
  | .entrySw 2 => d.entrySw3
  | .entrySw 3 => d.entrySw4
  | .entryResponse => d.entryResponse
  | .directMemOut 0 => d.directMemOut0
  | .directMemOut 1 => d.directMemOut1
  | .directMemOut 2 => d.directMemOut2
  | .directMemOut 3 => d.directMemOut3
  | .entry k => d.entry k
  | .directentry k => d.directentry k

def exec (d : Device) (p : Proc) : Device :=
  { d.process p with ready := d.ready.erase p, dirty := true }

/-- The update phase and the notifications after it: every channel shows what was written,
and the initiator's `wait(SC_ZERO_TIME)` ends. -/
def update (d : Device) : Device where
  bus := { d.bus with client := if d.bus.client = .delay then .idle else d.bus.client }
  setup := fun p =>
    { d.setup p with
      setupLowerRange := (d.setup p).setupLowerRange.update
      setupUpperRange := (d.setup p).setupUpperRange.update
      setupRuleRange := (d.setup p).setupRuleRange.update
      fwLowerRange := (d.setup p).fwLowerRange.update
      fwUpperRange := (d.setup p).fwUpperRange.update
      fwRuleRange := (d.setup p).fwRuleRange.update }
  setupPc := d.setupPc
  ingress := fun i =>
    { d.ingress i with
      in_ := (d.ingress i).in_.update
      total := (d.ingress i).total.update
      droped := (d.ingress i).droped.update
      fwRuleHitCounter := (d.ingress i).fwRuleHitCounter.update }
  switch :=
    { d.switch with
      inFifo := fun i => (d.switch.inFifo i).update
      outFifoS := fun a b => (d.switch.outFifoS a b).update
      outFifo := fun k => (d.switch.outFifo k).update }
  egress := fun k =>
    { d.egress k with
      handshake := { (d.egress k).handshake with
        ready := (d.egress k).handshake.ready.update
        done := (d.egress k).handshake.done.update
        outAddrToRead := (d.egress k).handshake.outAddrToRead.update } }
  responces :=
    { d.responces with
      initResponceFifo := fun n => (d.responces.initResponceFifo n).update
      responceFifo := fun n => (d.responces.responceFifo n).update
      responceS := fun n => (d.responces.responceS n).update
      inResponce := fun n => (d.responces.inResponce n).update }
  direct := fun k =>
    { d.direct k with
      dirMemOutFifo := (d.direct k).dirMemOutFifo.update
      dirMemResponceFifo := (d.direct k).dirMemResponceFifo.update
      handshake := { (d.direct k).handshake with
        ready := (d.direct k).handshake.ready.update
        done := (d.direct k).handshake.done.update
        outAddrToRead := (d.direct k).handshake.outAddrToRead.update } }
  mem := d.mem
  ready := d.ready
  dirty := false

inductive Action where
  | run (p : Proc)
  | request (t : Transaction)
  | delta
  | edge
  deriving DecidableEq, Repr

/-- The initiator makes a transport call. -/
def request (d : Device) (t : Transaction) : Device :=
  { d with bus := d.bus.request t, dirty := true }

/-- The clock rises. -/
def edge (d : Device) : Device := { d with ready := clocked.filter fun p => !d.blocked p }

/-- After the exception of a rejected call the simulation is over. -/
def step (d : Device) (a : Action) : Option Device :=
  if d.bus.client = .thrown then none
  else
    match a with
    | .run p => if d.runnable p then some (d.exec p) else none
    | .request t => if d.bus.client = .idle then some (d.request t) else none
    | .delta => if d.quiescent && d.dirty then some d.update else none
    | .edge => if d.quiescent && !d.dirty then some d.edge else none

def machine : Machine Device Action := ⟨new, step⟩

/-- A word from elsewhere is written to `in_i`, if there is room. -/
def arrive (d : Device) (i : Port) (w : Word) : Device :=
  { d with
    ingress := Function.update d.ingress i { d.ingress i with in_ := (d.ingress i).in_.push w }
    dirty := true }

def openStep (d : Device) : Action ⊕ (Port × Word) → Option Device
  | .inl a => d.step a
  | .inr (i, w) => if 0 < (d.ingress i).in_.numFree then some (d.arrive i w) else none

def openMachine : Machine Device (Action ⊕ (Port × Word)) := ⟨new, openStep⟩

/-! ### What a step can be -/

/-- A step of the closed machine, with its action. -/
inductive Move (d : Device) : Action → Device → Prop
  | run (p : Proc) (runnable : d.runnable p = true) : Move d (.run p) (d.exec p)
  | request (t : Transaction) (idle : d.bus.client = .idle) : Move d (.request t) (d.request t)
  | delta (quiescent : d.quiescent = true) (dirty : d.dirty = true) : Move d .delta d.update
  | edge (quiescent : d.quiescent = true) (clean : d.dirty = false) : Move d .edge d.edge

theorem step_iff {d e : Device} {a : Action} :
    d.step a = some e ↔ d.bus.client ≠ .thrown ∧ Move d a e := by
  constructor
  · intro h
    unfold step at h
    split at h
    · cases h
    next alive =>
      refine ⟨alive, ?_⟩
      cases a with
      | run p =>
        simp only at h
        split at h
        next runnable => cases h; exact .run p runnable
        next => cases h
      | request t =>
        simp only at h
        split at h
        next idle => cases h; exact .request t idle
        next => cases h
      | delta =>
        simp only [Bool.and_eq_true] at h
        split at h
        next enabled => cases h; exact .delta enabled.1 enabled.2
        next => cases h
      | edge =>
        simp only [Bool.and_eq_true, Bool.not_eq_true'] at h
        split at h
        next enabled => cases h; exact .edge enabled.1 enabled.2
        next => cases h
  · rintro ⟨alive, move⟩
    cases move with
    | run p runnable => simp [step, alive, runnable]
    | request t idle => simp [step, idle]
    | delta quiescent dirty => simp [step, alive, quiescent, dirty]
    | edge quiescent clean => simp [step, alive, quiescent, clean]

theorem move_of_step {d e : Device} {a : Action} (h : machine.step d a = some e) : Move d a e :=
  (step_iff.mp h).2

/-- A step of the open machine. -/
inductive Transition (d : Device) : Device → Prop
  | run (p : Proc) (runnable : d.runnable p = true) : Transition d (d.exec p)
  | request (t : Transaction) (idle : d.bus.client = .idle) : Transition d (d.request t)
  | delta (quiescent : d.quiescent = true) (dirty : d.dirty = true) : Transition d d.update
  | edge (quiescent : d.quiescent = true) (clean : d.dirty = false) : Transition d d.edge
  | arrive (i : Port) (w : Word) (free : 0 < (d.ingress i).in_.numFree) :
      Transition d (d.arrive i w)

theorem transition_of_move {d e : Device} {a : Action} (h : Move d a e) : Transition d e := by
  cases h with
  | run p runnable => exact .run p runnable
  | request t idle => exact .request t idle
  | delta quiescent dirty => exact .delta quiescent dirty
  | edge quiescent clean => exact .edge quiescent clean

theorem transition_of_openStep {d e : Device} {a : Action ⊕ (Port × Word)}
    (h : openMachine.step d a = some e) : Transition d e := by
  rcases a with a | ⟨i, w⟩
  · exact transition_of_move (move_of_step h)
  · simp only [openMachine, openStep] at h
    split at h
    next free => cases h; exact .arrive i w free
    next => cases h

/-- The initiator's runs are runs of the open machine. -/
theorem open_of_run {d e : Device} {as : List Action} (h : machine.run d as = some e) :
    openMachine.run d (as.map Sum.inl) = some e := by
  induction as generalizing d with
  | nil => exact h
  | cons a as ih =>
    obtain ⟨r, step, rest⟩ := (machine.run_cons_iff _ _ _ _).mp h
    exact (openMachine.run_cons_iff _ _ _ _).mpr ⟨r, step, ih rest⟩

theorem open_of_reachable {d : Device} (h : machine.Reachable d) : openMachine.Reachable d := by
  obtain ⟨as, hr⟩ := h
  exact ⟨_, open_of_run hr⟩

/-- The start address of a BRAM. -/
def memBase (k : Port) : Word := 0x40000000 + 0x1000 * BitVec.ofNat 32 k

@[simp] theorem process_interfaceIn (d : Device) (i : Port) :
    d.process (.interfaceIn i) = d.interfaceIn i (portBits i) := by
  match i with
  | 0 | 1 | 2 | 3 => rfl

@[simp] theorem process_interfaceOut (d : Device) (k : Port) :
    d.process (.interfaceOut k) = d.interfaceOut k (memBase k) := by
  match k with
  | 0 | 1 | 2 | 3 => rfl

@[simp] theorem process_directMemOut (d : Device) (k : Port) :
    d.process (.directMemOut k) = d.directMemOut k (memBase k) := by
  match k with
  | 0 | 1 | 2 | 3 => rfl

/-- A switch process changes the switch only. -/
theorem process_entrySw (d : Device) (k : Fin 4) :
    d.process (.entrySw k) = { d with switch := (d.process (.entrySw k)).switch } := by
  match k with
  | 0 | 1 | 2 | 3 => rfl

/-- A clocked process only notifies. -/
theorem process_signal (d : Device) {q : Proc} (h : q ∈ clocked) :
    ∃ notify pending, (d.process q).bus = d.bus.signal notify pending := by
  cases q with
  | client | executeWriteThread | executeReadThread => simp [clocked] at h
  | interfaceIn i => exact ⟨_, false, by rw [process_interfaceIn]; rfl⟩
  | interfaceOut k => exact ⟨_, false, by rw [process_interfaceOut]; rfl⟩
  | directMemOut k => exact ⟨_, _, by rw [process_directMemOut]; rfl⟩
  | entrySw k => exact ⟨false, false, by rw [process_entrySw]; rfl⟩
  | entryResponse => exact ⟨_, false, rfl⟩
  | setupfwRule =>
    refine ⟨false, false, ?_⟩
    simp only [process, setupfwRule]
    split <;> rfl
  | entry k | directentry k => exact ⟨false, false, rfl⟩

/-! ### Schedules

Building blocks of concrete runs, in which the processes run in the order of `clocked`. -/

/-- One clock cycle; the processes of `more` run after the clocked ones. -/
def cycle (more : List Proc) : List Action :=
  .edge :: (clocked ++ more).map .run ++ [.delta]

/-- The initiator starts a 4-byte `b_transport` call. -/
def call (command : TlmCommand) (address : BitVec 64) (v : Word) : Action :=
  .request ⟨.bTransport, command, address, v, 4, false⟩

/-- A write of `v` that the write thread itself acknowledges. -/
def setupWrite (e : BitVec 64 × Word) : List Action :=
  [call .write e.1 e.2, .run .executeWriteThread, .run .client, .delta]

/-- A write of a packet, which is not acknowledged yet. -/
def packetWrite (i : Port) (w : Word) : List Action :=
  [call .write (dWP i) w, .run .executeWriteThread, .delta]

/-- The state after a run; the initial state if the run is not possible. -/
def after (as : List Action) : Device := (machine.run new as).getD new

theorem run_after {as bs : List Action} (h : (machine.run new (as ++ bs)).isSome = true) :
    machine.run (after as) bs = some (after (as ++ bs)) := by
  obtain ⟨e, he⟩ := Option.isSome_iff_exists.mp h
  obtain ⟨d, first, second⟩ := (machine.run_append_iff _ _ _ _).mp he
  rw [after, after, he, first]
  exact second

theorem run_from_new {as : List Action} (h : (machine.run new as).isSome = true) :
    machine.run new as = some (after as) := by
  obtain ⟨d, hd⟩ := Option.isSome_iff_exists.mp h
  rw [after, hd]
  rfl

theorem reachable_after {as : List Action} (h : (machine.run new as).isSome = true) :
    machine.Reachable (after as) := ⟨as, run_from_new h⟩

end Device

end ScCosim.Firewall
