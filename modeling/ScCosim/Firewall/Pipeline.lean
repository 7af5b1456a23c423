import ScCosim.Firewall.Ingress
import ScCosim.Firewall.Registers

/-!
# The rule pipeline of a port

A rule travels from the setup registers through `setupfw_rule`'s sample to the latch of
`interface_in`. `PortStep` says once what any step of the device does to one port's pipeline;
everything about rules in force is derived from it.
-/
namespace ScCosim.Firewall

open Kernel Async

/-- The result of one run of `interface_in_p`. -/
def Device.judged (d : Device) (p : Port) : IngressStep :=
  IngressStep.run p (portBits p) (d.setup p).fwRange (d.responces.responceS p).cur
    ⟨d.ingress p, d.switch.inFifo p, d.responces.initResponceFifo p, false⟩

theorem Device.latching_judged (d : Device) (p : Port) :
    IngressStep.Latching (d.setup p).fwRange (d.ingress p) (d.judged p).ingress :=
  IngressStep.latching_run p (portBits p) (d.setup p).fwRange (d.responces.responceS p).cur
    ⟨d.ingress p, d.switch.inFifo p, d.responces.initResponceFifo p, false⟩

/-- The registers and samples of a port after an update phase. -/
def Setup.updated (s : Setup) : Setup :=
  { s with
    setupLowerRange := s.setupLowerRange.update
    setupUpperRange := s.setupUpperRange.update
    setupRuleRange := s.setupRuleRange.update
    fwLowerRange := s.fwLowerRange.update
    fwUpperRange := s.fwUpperRange.update
    fwRuleRange := s.fwRuleRange.update }

/-- The two processes of a port's pipeline. -/
def InPipeline (p : Port) (q : Proc) : Prop := q = .setupfwRule ∨ q = .interfaceIn p

/-- What a step from `d` to `e` does to the pipeline of port `p`. -/
inductive PortStep (p : Port) (d e : Device) : Prop
  /-- Only registers are written and only words arrive. -/
  | quiet (t : Triple) (fifo : Fifo Word)
      (setup : e.setup p = (d.setup p).writeSetup t)
      (pc : e.setupPc = d.setupPc)
      (ingress : e.ingress p = { d.ingress p with in_ := fifo })
      (arrived : fifo = (d.ingress p).in_ ∨ ∃ w, fifo = (d.ingress p).in_.push w)
      (ready : ∀ q, InPipeline p q → (q ∈ e.ready ↔ q ∈ d.ready))
  | sample
      (was : .setupfwRule ∈ d.ready)
      (setup : e.setup p = d.setupfwRule.setup p)
      (pc : e.setupPc = d.setupfwRule.setupPc)
      (ingress : e.ingress p = d.ingress p)
      (ready : .interfaceIn p ∈ e.ready ↔ .interfaceIn p ∈ d.ready)
  | judge
      (setup : e.setup p = d.setup p)
      (pc : e.setupPc = d.setupPc)
      (ingress : e.ingress p = (d.judged p).ingress)
      (ready : .setupfwRule ∈ e.ready ↔ .setupfwRule ∈ d.ready)
      (gone : .interfaceIn p ∉ e.ready)
  | update
      (setup : e.setup p = (d.setup p).updated)
      (pc : e.setupPc = d.setupPc)
      (ingress : ∃ total droped hits, e.ingress p = { d.ingress p with
        in_ := (d.ingress p).in_.update, total := total, droped := droped,
        fwRuleHitCounter := hits })
      (rest : ∀ q, InPipeline p q → q ∉ d.ready)
      (ready : e.ready = d.ready)
  | edge
      (clean : d.dirty = false)
      (setup : e.setup p = d.setup p)
      (pc : e.setupPc = d.setupPc)
      (ingress : e.ingress p = d.ingress p)
      (rest : ∀ q, InPipeline p q → q ∉ d.ready)
      (woken : .setupfwRule ∈ e.ready ∧
        (.interfaceIn p ∈ e.ready ∨ d.blocked (.interfaceIn p) = true))

namespace Device

/-! ### Frames -/

/-- Only the two threads named leave a mark on the registers and samples. -/
theorem process_setup (d : Device) {q : Proc} (setup : q ≠ .setupfwRule)
    (write : q ≠ .executeWriteThread) :
    (d.process q).setup = d.setup ∧ (d.process q).setupPc = d.setupPc := by
  cases q with
  | setupfwRule => exact absurd rfl setup
  | executeWriteThread => exact absurd rfl write
  | interfaceIn i => simp [interfaceIn]
  | interfaceOut k => simp [interfaceOut]
  | directMemOut k => simp [directMemOut]
  | entrySw k => rw [process_entrySw]; exact ⟨rfl, rfl⟩
  | executeReadThread =>
    obtain ⟨_, _, _, direct, same, _⟩ := d.executeReadThread_frame
    rw [process, same]
    exact ⟨rfl, rfl⟩
  | client | entryResponse | entry k | directentry k => exact ⟨rfl, rfl⟩

/-- Apart from the write thread only `interface_in_p` touches port `p`'s ingress. -/
theorem process_ingress (d : Device) {q : Proc} {p : Port} (own : q ≠ .interfaceIn p)
    (write : q ≠ .executeWriteThread) : (d.process q).ingress p = d.ingress p := by
  cases q with
  | executeWriteThread => exact absurd rfl write
  | interfaceIn i =>
    have other : p ≠ i := fun same => own (by rw [same])
    simp [interfaceIn, other]
  | interfaceOut k => simp [interfaceOut]
  | directMemOut k => simp [directMemOut]
  | entrySw k => rw [process_entrySw]
  | setupfwRule =>
    simp only [process, setupfwRule]
    split <;> rfl
  | executeReadThread =>
    obtain ⟨_, _, _, direct, same, _⟩ := d.executeReadThread_frame
    rw [process, same]
  | client | entryResponse | entry k | directentry k => rfl

/-- Only these processes touch the switch. -/
theorem process_switch (d : Device) {q : Proc} (ingress : ∀ i, q ≠ .interfaceIn i)
    (egress : ∀ k, q ≠ .interfaceOut k) (switch : ∀ k, q ≠ .entrySw k) :
    (d.process q).switch = d.switch := by
  cases q with
  | interfaceIn i => exact absurd rfl (ingress i)
  | interfaceOut k => exact absurd rfl (egress k)
  | entrySw k => exact absurd rfl (switch k)
  | directMemOut k => simp [directMemOut]
  | setupfwRule =>
    simp only [process, setupfwRule]
    split <;> rfl
  | executeReadThread =>
    obtain ⟨_, _, _, direct, same, _⟩ := d.executeReadThread_frame
    rw [process, same]
  | executeWriteThread =>
    obtain ⟨_, _, _, setup, ingress, direct, same, _⟩ := d.executeWriteThread_frame
    rw [process, same]
  | client | entryResponse | entry k | directentry k => rfl

private theorem writeIn_ingress (d : Device) (i p : Port) (v : Word) :
    ∃ fifo, (d.writeIn i v).ingress p = { d.ingress p with in_ := fifo } ∧
      (fifo = (d.ingress p).in_ ∨ ∃ w, fifo = (d.ingress p).in_.push w) := by
  unfold writeIn
  split
  · by_cases h : p = i
    · subst h
      exact ⟨_, by simp, Or.inr ⟨v, rfl⟩⟩
    · exact ⟨(d.ingress p).in_, by simp [h], Or.inl rfl⟩
  · exact ⟨(d.ingress p).in_, rfl, Or.inl rfl⟩

/-- A new request writes one register, or a word into one `in_i`. -/
private theorem decodeWrite_port (d : Device) (p : Port) :
    d.decodeWrite.setupPc = d.setupPc ∧
      ∃ fifo, d.decodeWrite.ingress p = { d.ingress p with in_ := fifo } ∧
        (fifo = (d.ingress p).in_ ∨ ∃ w, fifo = (d.ingress p).in_.push w) := by
  have same : ∃ fifo, d.ingress p = { d.ingress p with in_ := fifo } ∧
      (fifo = (d.ingress p).in_ ∨ ∃ w, fifo = (d.ingress p).in_.push w) :=
    ⟨(d.ingress p).in_, rfl, Or.inl rfl⟩
  cases direct : directPort d.bus.mWriteAddress with
  | some k =>
    simp only [decodeWrite, direct, writeDirect_setupPc, writeDirect_ingress]
    exact ⟨rfl, same⟩
  | none =>
    cases target : writeTarget d.bus.mWriteAddress with
    | packet i =>
      simp only [decodeWrite, direct, target, writeIn_setupPc]
      exact ⟨rfl, d.logServed.writeIn_ingress i p d.bus.mRegisterWrite⟩
    | lower i | upper i | rule i | unknown =>
      simp only [decodeWrite, direct, target]
      exact ⟨rfl, same⟩

/-- The write thread writes registers, and words into `in_p`. -/
theorem executeWriteThread_port (d : Device) (p : Port) :
    ∃ t fifo, d.executeWriteThread.setup p = (d.setup p).writeSetup t ∧
      d.executeWriteThread.setupPc = d.setupPc ∧
      d.executeWriteThread.ingress p = { d.ingress p with in_ := fifo } ∧
      (fifo = (d.ingress p).in_ ∨ ∃ w, fifo = (d.ingress p).in_.push w) := by
  unfold executeWriteThread
  cases d.bus.writeThread with
  | wait => exact ⟨(d.setup p).setupNext, (d.ingress p).in_, rfl, rfl, rfl, Or.inl rfl⟩
  | notified =>
    obtain ⟨e, -, registers⟩ := d.decodeWrite_registers
    obtain ⟨pc, fifo, ingress, arrived⟩ := d.decodeWrite_port p
    exact ⟨_, fifo, registers p, pc, ingress, arrived⟩
  | writeIn i v =>
    obtain ⟨fifo, ingress, arrived⟩ := d.writeIn_ingress i p v
    exact ⟨(d.setup p).setupNext, fifo, by simp, by simp, ingress, arrived⟩
  | writeDirect k v =>
    exact ⟨(d.setup p).setupNext, (d.ingress p).in_, by simp, by simp, by simp, Or.inl rfl⟩

theorem nodup_step {d e : Device} (nodup : d.ready.Nodup) (h : Transition d e) :
    e.ready.Nodup := by
  cases h with
  | run q => exact nodup.erase q
  | request | arrive | delta => exact nodup
  | edge =>
    have clocked_nodup : clocked.Nodup := by decide
    exact List.Pairwise.filter (fun q => !d.blocked q) clocked_nodup

/-- A process that has run is not ready again before the next edge. -/
theorem ready_nodup {d : Device} (h : openMachine.Reachable d) : d.ready.Nodup :=
  h.invariant (I := fun d => d.ready.Nodup) List.nodup_nil fun _ _ _ nodup hs =>
    nodup_step nodup (transition_of_openStep hs)

theorem not_ready_of_quiescent {d : Device} (h : d.quiescent = true) {q : Proc}
    (hq : q ∈ clocked) : q ∉ d.ready := by
  intro ready
  have idle := List.all_eq_true.mp h q (List.mem_append_right _ hq)
  have runnable : d.runnable q = true := by
    cases q with
    | client | executeWriteThread | executeReadThread => simp [clocked] at hq
    | _ => simp [Device.runnable, ready]
  simp [runnable] at idle

theorem mem_clocked_of_inPipeline {p : Port} {q : Proc} (h : InPipeline p q) : q ∈ clocked := by
  rcases h with rfl | rfl
  · decide
  · match p with
    | 0 | 1 | 2 | 3 => decide

/-- Every step of the device is a step of each port's pipeline. -/
theorem portStep_of_transition {d e : Device} (nodup : d.ready.Nodup) (h : Transition d e)
    (p : Port) : PortStep p d e := by
  cases h with
  | run q runnable =>
    by_cases write : q = .executeWriteThread
    · -- the write thread is not one of the pipeline's processes
      subst write
      obtain ⟨t, fifo, setup, pc, ingress, arrived⟩ := d.executeWriteThread_port p
      refine .quiet t fifo setup pc ingress arrived fun q hq => ?_
      rcases hq with rfl | rfl <;> exact List.mem_erase_of_ne (by simp)
    by_cases own : q = .interfaceIn p
    · subst own
      obtain ⟨setup, pc⟩ := d.process_setup (q := .interfaceIn p) (by simp) (by simp)
      refine .judge (congrFun setup p) pc ?_ (List.mem_erase_of_ne (by simp)) nodup.not_mem_erase
      simp [exec, interfaceIn, judged]
    by_cases rules : q = .setupfwRule
    · subst rules
      have was : Proc.setupfwRule ∈ d.ready := by simpa [Device.runnable, blocked] using runnable
      refine .sample was rfl rfl ?_ (List.mem_erase_of_ne (by simp))
      exact d.process_ingress (by simp) (by simp)
    · -- any other process leaves the pipeline alone
      obtain ⟨setup, pc⟩ := d.process_setup rules write
      have ingress := d.process_ingress own write
      refine .quiet (d.setup p).setupNext (d.ingress p).in_ (congrFun setup p) pc ingress
        (Or.inl rfl) fun r hr => ?_
      have other : r ≠ q := by
        rintro rfl
        rcases hr with rfl | rfl <;> contradiction
      exact List.mem_erase_of_ne other
  | request t idle =>
    exact .quiet (d.setup p).setupNext (d.ingress p).in_ rfl rfl rfl (Or.inl rfl) fun _ _ => Iff.rfl
  | delta quiescent dirty =>
    refine .update rfl rfl ⟨_, _, _, rfl⟩ (fun q hq => ?_) rfl
    exact not_ready_of_quiescent quiescent (mem_clocked_of_inPipeline hq)
  | edge quiescent clean =>
    have rest : ∀ q, InPipeline p q → q ∉ d.ready := fun q hq =>
      not_ready_of_quiescent quiescent (mem_clocked_of_inPipeline hq)
    refine .edge clean rfl rfl rfl rest ⟨?_, ?_⟩
    · simp [Device.edge, clocked, blocked]
    · have member := mem_clocked_of_inPipeline (p := p) (Or.inr rfl)
      -- a blocked process does not wait for the clock
      cases held : d.blocked (.interfaceIn p) with
      | true => exact Or.inr rfl
      | false => exact Or.inl (List.mem_filter.mpr ⟨member, by simp [held]⟩)
  | arrive i w free =>
    by_cases h : p = i
    · subst h
      refine .quiet (d.setup p).setupNext ((d.ingress p).in_.push w) rfl rfl ?_
        (Or.inr ⟨w, rfl⟩) fun _ _ => Iff.rfl
      simp [Device.arrive]
    · refine .quiet (d.setup p).setupNext (d.ingress p).in_ rfl rfl ?_ (Or.inl rfl)
        fun _ _ => Iff.rfl
      simp [Device.arrive, h]

end Device

end ScCosim.Firewall
