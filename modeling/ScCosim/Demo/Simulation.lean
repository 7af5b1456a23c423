import ScCosim.Kernel.Memory
import ScCosim.Async.Exit
import ScCosim.Driver.Requests
import ScCosim.Firewall.Machine

/-!
# The whole simulation

The co-simulation interface with the firewall bound to its socket: the payload that
`asysc_sysc_thread_process` sets up is the transaction of the firewall's initiator, and the
process goes on when the call returns. One kernel runs both sides. `SC_REPORT_ERROR` throws,
the exception leaves the process and `sc_start`, and `sc_main` catches it and stops: from
then on only the OS thread can take a step. The two clock-driven printing processes and
`keep_alive_process` have no part in it.
-/
namespace ScCosim.Demo

open Kernel Async Firewall

structure Simulation where
  cosim : Cosim
  device : Device

/-- The call that `asysc_sysc_thread_process` makes on its socket. -/
def transaction (trans : TlmPayload) (call : TransportCall) : Transaction where
  call := call
  command := trans.command
  address := trans.address
  data := BitVec.ofNat 32 (Memory.value trans.data)
  dataLength := trans.dataLength.toNat
  byteEnables := trans.byteEnables

namespace Simulation

inductive Action where
  /-- A step of one of the two loops that does not return from the target. -/
  | loops (a : Cosim.Action)
  /-- The transport call returns to the SystemC process. -/
  | target
  /-- A process of the firewall or of a receiver runs. -/
  | run (p : Proc)
  | update
  | edge
  deriving DecidableEq, Repr

def new : Simulation := ⟨Cosim.new, Device.new⟩

/-- No exception has ended `sc_start`. -/
def running (s : Simulation) : Bool := s.device.bus.client != .thrown

/-- Both functions of the target have set `TLM_OK_RESPONSE` when they return. A `b_transport`
is followed by `wait(delay)`, a `transport_dbg` is not. -/
def returned (s : Simulation) : Option TargetReply :=
  match s.cosim.sysc with
  | .transport _ call =>
    if s.device.bus.client = .idle ∨ (call = .transportDbg ∧ s.device.bus.client = .delay) then
      some ⟨.ok, Driver.wordBytes s.device.bus.trans.data⟩
    else none
  | _ => none

/-- Every process is suspended. -/
def suspended (s : Simulation) : Bool :=
  s.cosim.sysc.suspended && s.returned.isNone && s.device.quiescent

/-- The steps of `async_os_thread`. -/
def ofOsThread : Cosim.Action → Bool
  | .accept _ | .push | .waitForPut | .nbPull | .reply => true
  | _ => false

/-- From `nb_get` into the target, or out of the loop. -/
def call (c : Cosim) (d : Device) : Option Simulation :=
  match c.sysc with
  | .transport _ call => (d.step (.request (transaction c.trans call))).map fun e => ⟨c, e⟩
  | _ => some ⟨c, d⟩

/-- A step of one of the two loops. -/
def loopStep (s : Simulation) (a : Cosim.Action) : Option Simulation :=
  if ofOsThread a then (s.cosim.step a).map fun c => ⟨c, s.device⟩
  else if s.running then
    match a with
    | .nbGet => (s.cosim.step .nbGet).bind fun c => call c s.device
    | .nbPut | .loop | .stop => (s.cosim.step a).map fun c => ⟨c, s.device⟩
    | _ => none
  else none

/-- The kernel's update cycle. The channels of the firewall show what was written when the
notifications are delivered; without a call of `async_request_update()` the cycle is theirs
alone. -/
def updateStep (s : Simulation) : Option Simulation :=
  if s.cosim.sched.phase = .evaluate then
    if s.suspended then
      if s.cosim.sched.channel.updateRequested then
        (s.cosim.step .kernel).map fun c => ⟨c, s.device⟩
      else (s.device.step .delta).map fun d => ⟨s.cosim, d⟩
    else none
  else
    (s.cosim.step .kernel).map fun c =>
      ⟨c, if s.cosim.sched.phase = .notify ∧ s.device.dirty then s.device.update else s.device⟩

def step (s : Simulation) : Action → Option Simulation
  | .loops a => s.loopStep a
  | .target =>
    if s.running then
      s.returned.bind fun r => (s.cosim.step (.target r)).map fun c => ⟨c, s.device⟩
    else none
  | .run p =>
    if s.cosim.sched.phase = .evaluate then
      (s.device.step (.run p)).map fun d => ⟨s.cosim, d⟩
    else none
  | .update => if s.running then s.updateStep else none
  | .edge =>
    if s.cosim.sched.phase = .evaluate ∧ s.suspended then
      (s.device.step .edge).map fun d => ⟨s.cosim, d⟩
    else none

def machine : Machine Simulation Action := ⟨new, step⟩

/-- What a step can be. -/
inductive Transition (s : Simulation) : Action → Simulation → Prop
  | osThread (a : Cosim.Action) (c : Cosim) (os : ofOsThread a = true)
      (cosim : Cosim.machine.step s.cosim a = some c) : Transition s (.loops a) ⟨c, s.device⟩
  | nbGet (c : Cosim) (t : Simulation) (running : s.running = true)
      (cosim : Cosim.machine.step s.cosim .nbGet = some c)
      (called : call c s.device = some t) : Transition s (.loops .nbGet) t
  | process (a : Cosim.Action) (c : Cosim) (running : s.running = true)
      (place : a = .nbPut ∨ a = .loop ∨ a = .stop)
      (cosim : Cosim.machine.step s.cosim a = some c) : Transition s (.loops a) ⟨c, s.device⟩
  | target (r : TargetReply) (c : Cosim) (running : s.running = true)
      (returned : s.returned = some r) (cosim : Cosim.machine.step s.cosim (.target r) = some c) :
      Transition s .target ⟨c, s.device⟩
  | device (a : Action) (b : Device.Action) (d : Device) (step : s.device.step b = some d) :
      Transition s a ⟨s.cosim, d⟩
  | kernel (c : Cosim) (d : Device) (running : s.running = true)
      (cosim : Cosim.machine.step s.cosim .kernel = some c)
      (device : d = s.device ∨ d = s.device.update) : Transition s .update ⟨c, d⟩

theorem transition_of_loopStep {s t : Simulation} {a : Cosim.Action}
    (h : s.loopStep a = some t) : Transition s (.loops a) t := by
  unfold loopStep at h
  split at h
  · next os =>
    obtain ⟨c, cosim, rfl⟩ := Option.map_eq_some_iff.mp h
    exact .osThread a c os cosim
  split at h
  · next running =>
    cases a with
    | nbGet =>
      obtain ⟨c, cosim, called⟩ := Option.bind_eq_some_iff.mp h
      exact .nbGet c t running cosim called
    | nbPut | loop | stop =>
      obtain ⟨c, cosim, rfl⟩ := Option.map_eq_some_iff.mp h
      exact .process _ c running (by simp) cosim
    | _ => cases h
  · cases h

theorem transition_of_updateStep {s t : Simulation} (running : s.running = true)
    (h : s.updateStep = some t) : Transition s .update t := by
  unfold updateStep at h
  split at h
  · split at h
    · split at h
      · obtain ⟨c, cosim, rfl⟩ := Option.map_eq_some_iff.mp h
        exact .kernel c s.device running cosim (Or.inl rfl)
      · obtain ⟨d, delta, rfl⟩ := Option.map_eq_some_iff.mp h
        exact .device _ _ d delta
    · cases h
  · obtain ⟨c, cosim, rfl⟩ := Option.map_eq_some_iff.mp h
    apply Transition.kernel c _ running cosim
    split
    · exact Or.inr rfl
    · exact Or.inl rfl

theorem transition_of_step {s t : Simulation} {a : Action} (h : machine.step s a = some t) :
    Transition s a t := by
  cases a with
  | loops a => exact transition_of_loopStep h
  | target =>
    simp only [machine, step] at h
    split at h
    · next running =>
      obtain ⟨r, returned, h⟩ := Option.bind_eq_some_iff.mp h
      obtain ⟨c, cosim, rfl⟩ := Option.map_eq_some_iff.mp h
      exact .target r c running returned cosim
    · cases h
  | run p =>
    simp only [machine, step] at h
    split at h
    · obtain ⟨d, step, rfl⟩ := Option.map_eq_some_iff.mp h
      exact .device _ _ d step
    · cases h
  | update =>
    simp only [machine, step] at h
    split at h
    · next running => exact transition_of_updateStep running h
    · cases h
  | edge =>
    simp only [machine, step] at h
    split at h
    · obtain ⟨d, step, rfl⟩ := Option.map_eq_some_iff.mp h
      exact .device _ _ d step
    · cases h

/-! ### The interface in the whole -/

theorem call_cosim {c : Cosim} {d : Device} {t : Simulation} (h : call c d = some t) :
    t.cosim = c := by
  unfold call at h
  split at h
  · obtain ⟨e, -, rfl⟩ := Option.map_eq_some_iff.mp h
    rfl
  · cases h
    rfl

/-- The interface takes no other steps than it does with a target that answers at will. -/
theorem cosim_step {s t : Simulation} {a : Action} (hs : Transition s a t) :
    t.cosim = s.cosim ∨ ∃ b, Cosim.machine.step s.cosim b = some t.cosim := by
  cases hs with
  | osThread b c _ cosim | process b c _ _ cosim => exact Or.inr ⟨b, cosim⟩
  | nbGet c t _ cosim called =>
    rw [← call_cosim called] at cosim
    exact Or.inr ⟨.nbGet, cosim⟩
  | target r c _ _ cosim => exact Or.inr ⟨.target r, cosim⟩
  | device => exact Or.inl rfl
  | kernel c d _ cosim => exact Or.inr ⟨.kernel, cosim⟩

theorem cosim_reachable {s : Simulation} (h : machine.Reachable s) :
    Cosim.machine.Reachable s.cosim := by
  refine h.invariant (I := fun s => Cosim.machine.Reachable s.cosim) Cosim.machine.reachable_init ?_
  intro s a t before hs
  rcases cosim_step (transition_of_step hs) with same | ⟨b, step⟩
  · rw [same]
    exact before
  · exact before.step step

end Simulation

end ScCosim.Demo
