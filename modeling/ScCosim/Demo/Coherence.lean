import ScCosim.Async.Exchange
import ScCosim.Demo.Rejection
import ScCosim.Firewall.Accesses
import ScCosim.Firewall.Debug
import ScCosim.Firewall.Settled

/-!
# The memory that a client sees

A client of the demo writes and reads through the socket, the two loops, the kernel, the bus
and the switch. Put end to end, the requests and the replies are a list of calls, and what
each read has brought back to its client is what the calls before it have left: the firewall
makes no step here that it could not make with its own initiator, its log of returned calls
is the log of the interface, and the packets keep what has been written into them.
-/
namespace ScCosim.Demo

open Kernel Async Firewall

/-- A call of the target as a transaction, with what it brings back when it is a read. -/
def entry (presented : TlmPayload × TransportCall) (bytes : List Byte) : Transaction :=
  { transaction presented.1 presented.2 with
    data := BitVec.ofNat 32
      (Memory.value (if presented.1.command = .read then bytes else presented.1.data)) }

/-- The answered requests of a list, as calls. -/
def exchange (requests : List Request) (replies : List (AsyncStatus × List Byte)) :
    List Transaction :=
  List.zipWith entry (payloads .ignore requests) (replies.map Prod.snd)

theorem value_wordBytes (w : Word) : BitVec.ofNat 32 (Memory.value (Driver.wordBytes w)) = w := by
  apply BitVec.eq_of_toNat_eq
  have small := w.isLt
  simp only [Driver.wordBytes, Memory.value, BitVec.extractLsb'_toNat, Nat.shiftRight_eq_div_pow,
    BitVec.toNat_ofNat]
  omega

namespace Simulation

variable {s t : Simulation} {d e : Device}

/-- The requests and the replies of a run, as calls of the firewall. -/
def log (s : Simulation) : List Transaction :=
  exchange (s.cosim.record.accepted.map Prod.fst) s.cosim.replies

/-! ### Steps and phases -/

/-- What a step can be, with the phase of the kernel that it belongs to. -/
inductive Turn (s : Simulation) : Simulation → Prop
  | osThread (a : Cosim.Action) (c : Cosim) (os : ofOsThread a = true)
      (cosim : Cosim.machine.step s.cosim a = some c) : Turn s ⟨c, s.device⟩
  | take (c : Cosim) (t : Simulation) (cosim : Cosim.machine.step s.cosim .nbGet = some c)
      (called : call c s.device = some t) : Turn s t
  | process (a : Cosim.Action) (c : Cosim) (place : a = .nbPut ∨ a = .loop ∨ a = .stop)
      (cosim : Cosim.machine.step s.cosim a = some c) : Turn s ⟨c, s.device⟩
  | target (r : TargetReply) (c : Cosim) (returned : s.returned = some r)
      (cosim : Cosim.machine.step s.cosim (.target r) = some c) : Turn s ⟨c, s.device⟩
  | device (b : Device.Action) (d : Device) (phase : s.cosim.sched.phase = .evaluate)
      (own : ∀ u, b ≠ .request u) (step : Device.machine.step s.device b = some d) :
      Turn s ⟨s.cosim, d⟩
  | kernel (c : Cosim) (cosim : Cosim.machine.step s.cosim .kernel = some c)
      (quiet : s.cosim.sched.phase = .evaluate → s.device.quiescent = true) :
      Turn s ⟨c, s.device⟩
  | notify (c : Cosim) (cosim : Cosim.machine.step s.cosim .kernel = some c)
      (phase : s.cosim.sched.phase = .notify) (running : s.running = true)
      (dirty : s.device.dirty = true) : Turn s ⟨c, s.device.update⟩

theorem turn_of_updateStep (running : s.running = true) (h : s.updateStep = some t) :
    Turn s t := by
  unfold updateStep at h
  split at h
  · next phase =>
    split at h
    · next suspended =>
      have quiescent : s.device.quiescent = true := by
        unfold Simulation.suspended at suspended
        exact (Bool.and_eq_true_iff.mp suspended).2
      split at h
      · obtain ⟨c, cosim, rfl⟩ := Option.map_eq_some_iff.mp h
        exact .kernel c cosim fun _ => quiescent
      · obtain ⟨d, delta, rfl⟩ := Option.map_eq_some_iff.mp h
        exact .device .delta d phase (by simp) delta
    · cases h
  · next phase =>
    obtain ⟨c, cosim, rfl⟩ := Option.map_eq_some_iff.mp h
    split
    · next delivers => exact .notify c cosim delivers.1 running delivers.2
    · exact .kernel c cosim fun evaluate => absurd evaluate phase

theorem turn_of_loopStep {a : Cosim.Action} (h : s.loopStep a = some t) : Turn s t := by
  unfold loopStep at h
  split at h
  · next os =>
    obtain ⟨c, cosim, rfl⟩ := Option.map_eq_some_iff.mp h
    exact .osThread a c os cosim
  split at h
  · cases a with
    | nbGet =>
      obtain ⟨c, cosim, called⟩ := Option.bind_eq_some_iff.mp h
      exact .take c t cosim called
    | nbPut =>
      obtain ⟨c, cosim, rfl⟩ := Option.map_eq_some_iff.mp h
      exact .process .nbPut c (Or.inl rfl) cosim
    | loop =>
      obtain ⟨c, cosim, rfl⟩ := Option.map_eq_some_iff.mp h
      exact .process .loop c (Or.inr (Or.inl rfl)) cosim
    | stop =>
      obtain ⟨c, cosim, rfl⟩ := Option.map_eq_some_iff.mp h
      exact .process .stop c (Or.inr (Or.inr rfl)) cosim
    | _ => cases h
  · cases h

theorem turn_of_step {a : Action} (h : machine.step s a = some t) : Turn s t := by
  cases a with
  | loops a => exact turn_of_loopStep h
  | target =>
    simp only [machine, step] at h
    split at h
    · obtain ⟨r, returned, h⟩ := Option.bind_eq_some_iff.mp h
      obtain ⟨c, cosim, rfl⟩ := Option.map_eq_some_iff.mp h
      exact .target r c returned cosim
    · cases h
  | run p =>
    simp only [machine, step] at h
    split at h
    · next phase =>
      obtain ⟨d, step, rfl⟩ := Option.map_eq_some_iff.mp h
      exact .device (.run p) d phase (by simp) step
    · cases h
  | update =>
    simp only [machine, step] at h
    split at h
    · next running => exact turn_of_updateStep running h
    · cases h
  | edge =>
    simp only [machine, step] at h
    split at h
    · next enabled =>
      obtain ⟨d, step, rfl⟩ := Option.map_eq_some_iff.mp h
      exact .device .edge d enabled.1 (by simp) step
    · cases h

/-! ### The firewall among the loops -/

/-- During an update cycle the processes of the firewall stay suspended. -/
def Paced (s : Simulation) : Prop :=
  s.cosim.sched.phase ≠ .evaluate → s.device.quiescent = true

/-- Only the kernel changes the phase. -/
theorem phase_of_step {c k : Cosim} {a : Cosim.Action} (other : a ≠ .kernel)
    (h : Cosim.machine.step c a = some k) : k.sched.phase = c.sched.phase := by
  cases Cosim.transition_of_step h with
  | kernel => exact absurd rfl other
  | nbPull => unfold Cosim.nbPull; split <;> rfl
  | nbGet => unfold Cosim.nbGet; split <;> rfl
  | _ => rfl

theorem paced_step (reachable : Cosim.machine.Reachable s.cosim) (h : s.Paced) (hs : Turn s t) :
    t.Paced := by
  cases hs with
  | osThread a c os cosim =>
    have phase := phase_of_step (by rintro rfl; cases os) cosim
    rwa [Paced, phase]
  | take c t cosim called =>
    -- the process runs, so this is the evaluation phase
    have runs := (Cosim.stage_reachable reachable).2
    have phase := phase_of_step (by simp) cosim
    obtain ⟨sysc, -⟩ := sysc_of_nbGet cosim
    intro other
    rw [call_cosim called, phase] at other
    exact absurd (runs (by rw [sysc]; rfl)) other
  | process a c place cosim =>
    have phase := phase_of_step (by rintro rfl; simp at place) cosim
    rwa [Paced, phase]
  | target r c returned cosim =>
    have phase := phase_of_step (by simp) cosim
    rwa [Paced, phase]
  | device b d phase own step => exact fun other => absurd phase other
  | kernel c cosim quiet =>
    intro other
    by_cases phase : s.cosim.sched.phase = .evaluate
    · exact quiet phase
    · exact h phase
  | notify c cosim phase running dirty =>
    cases Cosim.transition_of_step cosim with
    | kernel k sched =>
      simp only [Scheduled.kernelStep, phase, Option.some.injEq] at sched
      subst sched
      exact fun other => absurd rfl other

/-- The notifications of an update cycle are delivered as in an update of the firewall's own. -/
theorem delta_of_notify (paced : s.Paced) (phase : s.cosim.sched.phase = .notify)
    (running : s.running = true) (dirty : s.device.dirty = true) :
    Device.machine.step s.device .delta = some s.device.update :=
  Device.step_iff.mpr ⟨not_thrown_of_running running, .delta (paced (by simp [phase])) dirty⟩

/-- The firewall takes the steps that it takes with its own initiator. -/
theorem device_step (paced : s.Paced) (hs : Turn s t) :
    t.device = s.device ∨ ∃ b, Device.machine.step s.device b = some t.device := by
  cases hs with
  | osThread | process | target | kernel => exact Or.inl rfl
  | device b d _ _ step => exact Or.inr ⟨b, step⟩
  | take c t cosim called =>
    unfold call at called
    split at called
    · obtain ⟨e, step, rfl⟩ := Option.map_eq_some_iff.mp called
      exact Or.inr ⟨.request _, step⟩
    · cases called
      exact Or.inl rfl
  | notify c cosim phase running dirty => exact Or.inr ⟨.delta, delta_of_notify paced phase running dirty⟩

theorem device_reachable (h : machine.Reachable s) :
    Device.machine.Reachable s.device ∧ s.Paced := by
  have inv : Cosim.machine.Reachable s.cosim ∧ Device.machine.Reachable s.device ∧ s.Paced := by
    refine h.invariant (I := fun s => Cosim.machine.Reachable s.cosim ∧
      Device.machine.Reachable s.device ∧ s.Paced)
      ⟨Cosim.machine.reachable_init, Device.machine.reachable_init, fun other => absurd rfl other⟩ ?_
    rintro s a t ⟨interface, firewall, paced⟩ hs
    have turn := turn_of_step hs
    refine ⟨?_, ?_, paced_step interface paced turn⟩
    · rcases cosim_step (transition_of_step hs) with same | ⟨b, step⟩
      · rwa [same]
      · exact interface.step step
    · rcases device_step paced turn with same | ⟨b, step⟩
      · rwa [same]
      · exact firewall.step step
  exact inv.2

/-! ### The call in hand -/

/-- The firewall's initiator has none. -/
def Between (done : List Transaction) (d : Device) : Prop :=
  (d.bus.client = .idle ∨ d.bus.client = .delay) ∧ d.bus.returned = done

/-- The transaction is the one that was started, except that a read may have brought data. -/
def Same (u v : Transaction) : Prop :=
  v = { u with data := v.data } ∧ (u.command ≠ .read → v.data = u.data)

/-- Its call `u` is on its way, or over; `done` had returned before it. -/
inductive Calling (done : List Transaction) (u : Transaction) (d : Device) : Prop
  | inside (client : d.bus.client ≠ .idle ∧ d.bus.client ≠ .delay) (same : Same u d.bus.trans)
      (returned : d.bus.returned = done)
  | past (same : Same u d.bus.trans) (between : Between (done ++ [d.bus.trans]) d)

theorem same_refl (u : Transaction) : Same u u := ⟨rfl, fun _ => rfl⟩

/-- A read that is over holds what it has brought back. -/
theorem entry_of_same {trans : TlmPayload} {call : TransportCall} {v : Transaction}
    (h : Same (transaction trans call) v) : entry (trans, call) (Driver.wordBytes v.data) = v := by
  obtain ⟨same, kept⟩ := h
  rw [entry]
  by_cases read : trans.command = .read
  · rw [if_pos read, value_wordBytes]
    exact same.symm
  · rw [if_neg read]
    have data : v.data = (transaction trans call).data := kept read
    rw [same, data]
    rfl

variable {done : List Transaction} {u : Transaction}

/-- Without a call the two threads wait, and the clocked processes wake nobody. -/
theorem between_process (reachable : Device.machine.Reachable d) (h : Between done d) {q : Proc}
    (runnable : d.runnable q = true) : Between done (d.process q) := by
  obtain ⟨client, returned⟩ := h
  have account := Device.accounted_of_reachable reachable
  have writer := (account.no_write (by rcases client with at_ | at_ <;> simp [at_])).1
  have reader := (account.no_read (by rcases client with at_ | at_ <;> simp [at_])).1
  rcases Device.clocked_or_thread q with inside | rfl | rfl | rfl
  · obtain ⟨notify, pending, bus⟩ := d.process_signal inside
    refine ⟨?_, ?_⟩
    · rw [bus, d.bus.signal_client, if_neg (by rcases client with at_ | at_ <;> simp [at_])]
      exact client
    · obtain ⟨c, r, frame, -⟩ := d.bus.signal_frame notify pending
      rw [bus, frame]
      exact returned
  · rcases client with at_ | at_ <;> simp [Device.runnable, at_] at runnable
  · simp [Device.runnable, writer] at runnable
  · simp [Device.runnable, reader] at runnable

theorem between_step (reachable : Device.machine.Reachable d) (h : Between done d)
    {b : Device.Action} (own : ∀ v, b ≠ .request v) (hs : Device.machine.step d b = some e) :
    Between done e := by
  cases Device.move_of_step hs with
  | run q runnable => exact between_process reachable h runnable
  | request v => exact absurd rfl (own v)
  | delta =>
    refine ⟨?_, h.2⟩
    simp only [Device.update]
    split
    · exact Or.inl rfl
    · exact h.1
  | edge => exact h

/-- A step of the firewall brings its call forward. -/
theorem calling_step (reachable : Device.machine.Reachable d) (h : Calling done u d)
    {b : Device.Action} (own : ∀ v, b ≠ .request v) (hs : Device.machine.step d b = some e) :
    Calling done u e := by
  cases h with
  | inside client same returned =>
    cases Device.move_of_step hs with
    | run q runnable =>
      by_cases initiator : q = .client
      · -- the call returns
        subst initiator
        refine .past ?_ ⟨Or.inr rfl, ?_⟩
        · obtain ⟨fields, kept⟩ := same
          simp only [Device.exec, Device.process, Bus.returns, Bus.finish]
          split
          · next read =>
            have command : u.command = .read := by rw [← read.1, fields]
            exact ⟨by rw [fields], fun other => absurd command other⟩
          · exact ⟨fields, kept⟩
        · simp [Device.exec, Device.process, Bus.returns, Bus.finish, returned]
      · obtain ⟨trans, log⟩ := d.process_call initiator
        refine .inside ?_ ?_ ?_
        · have woken := d.client_process initiator
          change (d.process q).bus.client ≠ .idle ∧ (d.process q).bus.client ≠ .delay
          rcases woken with same | notified
          · rwa [same]
          · simp [notified]
        · change Same u (d.process q).bus.trans
          rwa [trans]
        · exact log.trans returned
    | request v => exact absurd rfl (own v)
    | delta =>
      refine .inside ?_ same returned
      simp only [Device.update, if_neg client.2]
      exact client
    | edge => exact .inside client same returned
  | past same between =>
    have trans : e.bus.trans = d.bus.trans := by
      cases Device.move_of_step hs with
      | run q runnable =>
        refine (d.process_call ?_).1
        rintro rfl
        rcases between.1 with at_ | at_ <;> simp [Device.runnable, at_] at runnable
      | request v => exact absurd rfl (own v)
      | delta | edge => rfl
    refine .past ?_ ?_
    · rwa [trans]
    · rw [trans]
      exact between_step reachable between own hs

theorem notifyRead_frame (b : Bus) : ∃ thread, b.notifyRead = { b with readThread := thread } := by
  unfold Bus.notifyRead
  split
  · exact ⟨_, rfl⟩
  · exact ⟨b.readThread, rfl⟩

theorem notifyWrite_frame (b : Bus) :
    ∃ thread, b.notifyWrite = { b with writeThread := thread } := by
  unfold Bus.notifyWrite
  split
  · exact ⟨_, rfl⟩
  · exact ⟨b.writeThread, rfl⟩

/-- The initiator starts a call. -/
theorem calling_request (h : Between done d) {u : Transaction} (hs : d.step (.request u) = some e) :
    Calling done u e := by
  cases (Device.step_iff.mp hs).2 with
  | request _ idle =>
    simp only [Device.request, Bus.request]
    split
    · split
      · next read =>
        obtain ⟨thread, frame⟩ := notifyRead_frame { d.bus with
          client := .waitRead
          trans := if u.call = .transportDbg then { u with data := d.bus.mRegisterRead } else u
          mReadAddress := u.address }
        rw [frame]
        refine .inside (by simp) ?_ h.2
        -- a debug read has been given the register already
        dsimp only
        split <;> exact ⟨rfl, fun other => absurd read other⟩
      · obtain ⟨thread, frame⟩ := notifyWrite_frame { d.bus with
          client := .waitWrite, trans := u, mWriteAddress := u.address, mRegisterWrite := u.data }
        rw [frame]
        exact .inside (by simp) (same_refl u) h.2
      · exact .past (same_refl u) ⟨Or.inr rfl, congrArg (· ++ [u]) h.2⟩
    · exact .inside (by simp) (same_refl u) h.2

/-! ### Every run -/

/-- A call that is over, as the firewall has logged it. -/
def entryOf (c : TargetCall) : Transaction := entry c.presented c.reply.data

/-- The firewall has logged the calls that are over, and has the one in hand. -/
structure Linked (calls : List TargetCall) (s : Simulation) : Prop where
  ok : ∀ c ∈ calls, c.reply.responseStatus = .ok
  place : match s.cosim.sysc with
    | .transport _ call => Calling (calls.map entryOf) (transaction s.cosim.trans call) s.device
    | _ => Between (calls.map entryOf) s.device

variable {calls : List TargetCall}

theorem Linked.between (h : Linked calls s) (elsewhere : ∀ p call, s.cosim.sysc ≠ .transport p call) :
    Between (calls.map entryOf) s.device := by
  have place := h.place
  cases sysc : s.cosim.sysc with
  | transport p call => exact absurd sysc (elsewhere p call)
  | _ => simpa only [sysc] using place

theorem linked_of_between (ok : ∀ c ∈ calls, c.reply.responseStatus = .ok)
    (elsewhere : ∀ p call, s.cosim.sysc ≠ .transport p call)
    (between : Between (calls.map entryOf) s.device) : Linked calls s := by
  refine ⟨ok, ?_⟩
  cases sysc : s.cosim.sysc with
  | transport p call => exact absurd sysc (elsewhere p call)
  | _ => exact between

/-- The place of the SystemC process and its payload decide. -/
theorem Linked.congr (h : Linked calls s) (sysc : t.cosim.sysc = s.cosim.sysc)
    (trans : t.cosim.trans = s.cosim.trans) (device : t.device = s.device) : Linked calls t := by
  refine ⟨h.ok, ?_⟩
  rw [sysc, trans, device]
  exact h.place

theorem linked_take (h : Linked calls s) {c : Cosim}
    (cosim : Cosim.machine.step s.cosim .nbGet = some c) (called : call c s.device = some t) :
    Linked calls t := by
  obtain ⟨sysc, -⟩ := sysc_of_nbGet cosim
  have between := h.between (by simp [sysc])
  unfold call at called
  split at called
  · next p kind place =>
    obtain ⟨e, step, rfl⟩ := Option.map_eq_some_iff.mp called
    refine ⟨h.ok, ?_⟩
    simp only [place]
    exact calling_request between step
  · next elsewhere =>
    cases called
    exact linked_of_between h.ok (fun p call => elsewhere p call) between

theorem linked_target (h : Linked calls s) {r : TargetReply} {c : Cosim}
    (returned : s.returned = some r) (cosim : Cosim.machine.step s.cosim (.target r) = some c) :
    Linked (calls ++ Cosim.ended s.cosim (.target r) c) ⟨c, s.device⟩ := by
  obtain ⟨p, kind, sysc, after, -⟩ := target_frame cosim
  have place := h.place
  simp only [sysc] at place
  simp only [Simulation.returned, sysc] at returned
  split at returned
  · next past =>
    cases returned
    cases place with
    | inside client =>
      rcases past with at_ | ⟨-, at_⟩
      · exact absurd at_ client.1
      · exact absurd at_ client.2
    | past same between =>
      simp only [Cosim.ended, sysc]
      refine linked_of_between ?_ (by simp [after]) ?_
      · intro x member
        rcases List.mem_append.mp member with old | new
        · exact h.ok x old
        · rw [List.mem_singleton.mp new]
      · rw [List.map_append, List.map_singleton, entryOf, TargetCall.presented,
          entry_of_same same]
        exact between
  · cases returned

theorem linked_device (h : Linked calls s) (reachable : Device.machine.Reachable s.device)
    {b : Device.Action} (own : ∀ v, b ≠ .request v) (step : Device.machine.step s.device b = some d) :
    Linked calls ⟨s.cosim, d⟩ := by
  refine ⟨h.ok, ?_⟩
  have place := h.place
  cases sysc : s.cosim.sysc with
  | transport p call =>
    simp only [sysc] at place
    exact calling_step reachable place own step
  | _ =>
    simp only [sysc] at place
    exact between_step reachable place own step

/-- The kernel leaves the payload and a call alone. -/
theorem linked_kernel (h : Linked calls s) {c : Cosim}
    (cosim : Cosim.machine.step s.cosim .kernel = some c) : Linked calls ⟨c, s.device⟩ := by
  have trans : c.trans = s.cosim.trans := by
    cases Cosim.transition_of_step cosim with
    | kernel => rfl
  rcases (kernel_frame cosim).2 with same | ⟨waiting, woken⟩
  · exact h.congr same trans rfl
  · exact linked_of_between h.ok (by simp [woken]) (h.between (by simp [waiting]))

/-- One step of the whole: some step of the interface, or none, with the calls that end in it. -/
theorem linked_step (reachable : Device.machine.Reachable s.device) (paced : s.Paced)
    (h : Linked calls s) (hs : Turn s t) :
    ∃ bs, Cosim.machine.run s.cosim bs = some t.cosim ∧
      Linked (calls ++ Cosim.machine.trace Cosim.ended s.cosim bs) t := by
  have single : ∀ {b : Cosim.Action} {c : Cosim}, Cosim.machine.step s.cosim b = some c →
      Linked (calls ++ Cosim.ended s.cosim b c) t → t.cosim = c →
      ∃ bs, Cosim.machine.run s.cosim bs = some t.cosim ∧
        Linked (calls ++ Cosim.machine.trace Cosim.ended s.cosim bs) t := by
    rintro b c step linked rfl
    refine ⟨[b], by simp [step], ?_⟩
    rwa [Machine.trace_cons Cosim.ended step, Machine.trace_nil, List.append_nil]
  cases hs with
  | osThread a c os cosim =>
    refine single cosim ?_ rfl
    have trans : c.trans = s.cosim.trans := by
      cases Cosim.transition_of_step cosim with
      | nbPull => unfold Cosim.nbPull; split <;> rfl
      | accept | push | waitForPut | reply => rfl
      | _ => cases os
    have none : Cosim.ended s.cosim a c = [] := by
      cases a with
      | target r => cases os
      | _ => simp only [Cosim.ended]
    rw [none, List.append_nil]
    exact h.congr (osThread_frame os cosim).1 trans rfl
  | take c t cosim called =>
    refine single cosim ?_ (call_cosim called)
    simpa only [Cosim.ended, List.append_nil] using linked_take h cosim called
  | process a c place cosim =>
    refine single cosim ?_ rfl
    obtain ⟨-, -, -, elsewhere, -⟩ := process_frame place cosim
    have before : ∀ p call, s.cosim.sysc ≠ .transport p call := by
      intro p call sysc
      cases Cosim.transition_of_step cosim <;> simp_all [Cosim.AtTop]
    have none : Cosim.ended s.cosim a c = [] := by
      rcases place with rfl | rfl | rfl <;> simp only [Cosim.ended]
    rw [none, List.append_nil]
    exact linked_of_between h.ok elsewhere (h.between before)
  | target r c returned cosim => exact single cosim (linked_target h returned cosim) rfl
  | device b d phase own step => exact ⟨[], rfl, by simpa using linked_device h reachable own step⟩
  | kernel c cosim quiet =>
    refine single cosim ?_ rfl
    simpa only [Cosim.ended, List.append_nil] using linked_kernel h cosim
  | notify c cosim phase running dirty =>
    refine single cosim ?_ rfl
    have updated := linked_device h reachable (by simp) (delta_of_notify paced phase running dirty)
    simpa only [Cosim.ended, List.append_nil] using linked_kernel updated cosim

theorem linked_reachable (h : machine.Reachable s) :
    ∃ as, Cosim.machine.run Cosim.new as = some s.cosim ∧ Linked (Cosim.callsOf as) s := by
  have inv : machine.Reachable s ∧
      ∃ as, Cosim.machine.run Cosim.new as = some s.cosim ∧ Linked (Cosim.callsOf as) s := by
    refine h.invariant (I := fun s => machine.Reachable s ∧
      ∃ as, Cosim.machine.run Cosim.new as = some s.cosim ∧ Linked (Cosim.callsOf as) s)
      ⟨machine.reachable_init, [], rfl, by simp [Cosim.callsOf], Or.inl rfl, rfl⟩ ?_
    rintro s a t ⟨reachable, as, run, linked⟩ hs
    obtain ⟨firewall, paced⟩ := device_reachable reachable
    obtain ⟨bs, more, linked'⟩ := linked_step firewall paced linked (turn_of_step hs)
    refine ⟨reachable.step hs, as ++ bs, ?_, ?_⟩
    · exact (Cosim.machine.run_append_iff _ _ _ _).mpr ⟨_, run, more⟩
    · rwa [Cosim.callsOf, Machine.trace_append Cosim.ended run]
  exact inv.2

/-! ### What the clients see -/

private theorem zipWith_prefix {α β γ δ : Type} {f : β → γ → δ} {a : α → β} {b : α → γ}
    {cs : List α} {xs : List β} {ys : List γ} (left : cs.map a <+: xs) (right : ys <+: cs.map b) :
    List.zipWith f xs ys <+: cs.map fun c => f (a c) (b c) := by
  induction cs generalizing xs ys with
  | nil =>
    obtain rfl := List.prefix_nil.mp right
    simp
  | cons c cs ih =>
    cases ys with
    | nil => simp
    | cons y ys =>
      obtain ⟨more, rfl⟩ := left
      obtain ⟨rfl, rest⟩ := List.cons_prefix_cons.mp right
      simpa using ih (List.prefix_append _ _) rest

/-- What the clients have been told is what the firewall has logged. -/
theorem log_is_returned (h : machine.Reachable s) : s.log <+: s.device.bus.returned := by
  obtain ⟨as, run, linked⟩ := linked_reachable h
  have told : s.log <+: (Cosim.callsOf as).map entryOf := by
    refine zipWith_prefix (Cosim.presented_accepted run) ?_
    have data := (Cosim.replies_returned run).map Prod.snd
    rwa [List.map_map] at data
  refine told.trans ?_
  have place := linked.place
  cases sysc : s.cosim.sysc with
  | transport p call =>
    simp only [sysc] at place
    cases place with
    | inside _ _ returned => rw [returned]
    | past _ between =>
      rw [between.2]
      exact List.prefix_append _ _
  | _ =>
    simp only [sysc] at place
    rw [place.2]

theorem right_of_prefix {part whole : List Transaction} (within : part <+: whole)
    (right : Contents.Right whole) : Contents.Right part := by
  obtain ⟨rest, rfl⟩ := within
  rintro before u later rfl
  exact right before u (later ++ rest) (by simp)

/-- The firewall answers every call with `TLM_OK_RESPONSE`. -/
theorem reply_ok (h : machine.Reachable s) : ∀ r ∈ s.cosim.replies, r.1 = .okResponse := by
  intro r member
  obtain ⟨as, run, linked⟩ := linked_reachable h
  obtain ⟨c, past, same⟩ := List.mem_map.mp ((Cosim.replies_returned run).subset member)
  rw [← same, TargetCall.returned, linked.ok c past]
  rfl

/-- In every run of the whole simulation, as long as no rule has been enabled: each read that
has been answered brought its client what the requests before it had left, the requests of
all clients taken in the order in which they were accepted; every answer says that it is one;
and where the requests are accesses of an array, the clients have seen an array. -/
theorem clients_see_memory (h : machine.Reachable s) (off : s.device.RulesOff) :
    Contents.Right s.log ∧ (∀ w ∈ s.cosim.record.pulled, w.2 = .okResponse) ∧
      ∀ before o later, s.log = (before ++ o :: later).flatMap Operation.calls →
        o.Returns (arrayAfter before) := by
  obtain ⟨firewall, -⟩ := device_reachable h
  have right := right_of_prefix (log_is_returned h) (Device.faithful_of_reachable firewall off).1
  refine ⟨right, fun w member => ?_, fun before o later log => returns_of_right (log ▸ right)⟩
  exact reply_ok h (w.2, (s.cosim.heap w.1).data) (List.mem_map_of_mem member)

/-- One clock cycle, in which the processes of `more` run after the clocked ones. -/
def cycle (more : List Proc) : List Action :=
  .edge :: (Device.clocked ++ more).map .run ++ [.update]

/-- A request comes in and the firewall is called. -/
def send (r : Request) : List Action :=
  [.loops (.accept r), .loops .push, .update, .update, .update, .update, .loops .nbGet]

/-- The call is over and the reply is pulled. -/
def receive : List Action :=
  [.target, .loops .nbPut, .loops .loop, .loops .waitForPut, .loops .nbPull]

/-- A word is written to a cell and read back. -/
def writeAndRead : List Action :=
  [.loops .loop] ++ cycle [] ++ cycle [] ++
    send ⟨AsyncCommand.write.code, 0x40000005, [7, 0, 0, 0]⟩ ++ [.run .executeWriteThread, .update] ++
    cycle [] ++ cycle [] ++ cycle [.client] ++ receive ++ [.loops .reply] ++
    send ⟨AsyncCommand.read.code, 0x40000005, [0, 0, 0, 0]⟩ ++ [.run .executeReadThread, .update] ++
    cycle [] ++ cycle [] ++ [.run .executeReadThread, .run .client, .update] ++ receive

def afterWriteAndRead : Simulation := (machine.run new writeAndRead).getD new

theorem clients_see_memory_of_cell :
    Contents.Right afterWriteAndRead.log ∧
      (∀ w ∈ afterWriteAndRead.cosim.record.pulled, w.2 = .okResponse) ∧
      ∀ before o later, afterWriteAndRead.log = (before ++ o :: later).flatMap Operation.calls →
        o.Returns (arrayAfter before) := by
  have possible : (machine.run new writeAndRead).isSome = true := by decide +kernel
  have run : machine.run new writeAndRead = some afterWriteAndRead := by
    obtain ⟨s, hs⟩ := Option.isSome_iff_exists.mp possible
    rw [afterWriteAndRead, hs]
    rfl
  have none : ∀ p, setupEntries p afterWriteAndRead.device.bus.served = [] := by decide +kernel
  have off : afterWriteAndRead.device.RulesOff := by
    intro p part within
    rw [none, List.prefix_nil] at within
    subst within
    simp [registersAfter, Triple.enabled]
  exact clients_see_memory ⟨writeAndRead, run⟩ off

end Simulation

end ScCosim.Demo
