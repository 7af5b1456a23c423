import ScCosim.Firewall.Pipeline

/-!
# Rules are never torn, and how a rule is replaced

Bounds and rule value are written one by one but travel down the pipeline together. So a
property of triples that the registers have at all times holds of every latched triple. With
the property chosen to fit, this gives that an enabled rule is the rule of one call, and
which triples judge a packet while a rule is being replaced.
-/
namespace ScCosim.Firewall

open Kernel Async

namespace Device

/-! ### The log along a run -/

private theorem request_served (b : Bus) (t : Transaction) : (b.request t).served = b.served := by
  unfold Bus.request
  split
  · split
    · simp only [Bus.notifyRead]; split <;> rfl
    · simp only [Bus.notifyWrite]; split <;> rfl
    · rfl
  · rfl

/-- Only the write thread adds to the record of writes. -/
theorem process_served (d : Device) {q : Proc} (write : q ≠ .executeWriteThread) :
    (d.process q).bus.served = d.bus.served := by
  rcases clocked_or_thread q with inside | rfl | rfl | rfl
  · obtain ⟨notify, pending, bus⟩ := d.process_signal inside
    obtain ⟨c, r, frame, -⟩ := d.bus.signal_frame notify pending
    rw [bus, frame]
  · simp only [process, Bus.returns, Bus.finish]
  · exact absurd rfl write
  · obtain ⟨_, _, _, _, same, _⟩ := d.executeReadThread_frame
    rw [process, same]

private theorem setupfwRule_setupNext (d : Device) (p : Port) :
    (d.setupfwRule.setup p).setupNext = (d.setup p).setupNext := by
  unfold setupfwRule
  split
  · rfl
  · rfl
  · exact (d.setup p).sample_setupNext

/-- A step serves some writes, and every port's registers follow them. -/
theorem served_of_transition {d e : Device} (h : Transition d e) :
    ∃ more, e.bus.served = d.bus.served ++ more ∧
      ∀ p, (e.setup p).setupNext = registersAfter p (d.setup p).setupNext more := by
  -- a step that serves nothing leaves the registers as they are
  have none : ∀ {f : Device}, f.bus.served = d.bus.served →
      (∀ p, (f.setup p).setupNext = (d.setup p).setupNext) →
      ∃ more, f.bus.served = d.bus.served ++ more ∧
        ∀ p, (f.setup p).setupNext = registersAfter p (d.setup p).setupNext more :=
    fun served registers => ⟨[], by simpa using served, registers⟩
  cases h with
  | run q =>
    by_cases write : q = .executeWriteThread
    · subst write
      simp only [exec, process, executeWriteThread]
      cases d.bus.writeThread with
      | wait => exact none rfl fun _ => rfl
      | notified =>
        obtain ⟨w, served, registers⟩ := d.decodeWrite_registers
        exact ⟨[w], served, fun p => by simp [registers p, registersAfter]⟩
      | writeIn i v => exact none (by simp) (by simp)
      | writeDirect k v => exact none (by simp) (by simp)
    · refine none (d.process_served write) fun p => ?_
      by_cases rules : q = .setupfwRule
      · subst rules
        exact d.setupfwRule_setupNext p
      · exact congrArg Setup.setupNext (congrFun (d.process_setup rules write).1 p)
  | request t => exact none (request_served _ _) fun _ => rfl
  | delta | edge | arrive => exact none rfl fun _ => rfl

theorem served_of_run {d e : Device} {as : List (Action ⊕ (Port × Word))}
    (h : openMachine.run d as = some e) :
    ∃ more, e.bus.served = d.bus.served ++ more ∧
      ∀ p, (e.setup p).setupNext = registersAfter p (d.setup p).setupNext more := by
  refine Machine.run_invariant (I := fun e => ∃ more, e.bus.served = d.bus.served ++ more ∧
    ∀ p, (e.setup p).setupNext = registersAfter p (d.setup p).setupNext more) ?_
    ⟨[], by simp, fun _ => rfl⟩ h
  rintro e a f ⟨more, served, registers⟩ hs
  obtain ⟨next, served', registers'⟩ := served_of_transition (transition_of_openStep hs)
  refine ⟨more ++ next, by rw [served', served, List.append_assoc], fun p => ?_⟩
  rw [registers' p, registers p, registersAfter_append]

/-! ### Properties of triples travel down the pipeline -/

/-- Every stage of port `p`'s pipeline holds a triple with the property. -/
structure Stages (Good : Triple → Prop) (d : Device) (p : Port) : Prop where
  registers : Good (d.setup p).setupNext
  visible : Good (d.setup p).setupRange
  sampled : Good (d.setup p).fwNext
  shown : Good (d.setup p).fwRange
  latched : Good (d.ingress p).fwRead

section stages

variable {Good : Triple → Prop} {d e : Device} {p : Port}

private theorem setupfwRule_stages (zero : Good ⟨0, 0, 0⟩) (h : Stages Good d p) :
    Good (d.setupfwRule.setup p).setupRange ∧ Good (d.setupfwRule.setup p).fwNext ∧
      Good (d.setupfwRule.setup p).fwRange := by
  unfold setupfwRule
  split
  · -- the part before the loop writes the disabled rule
    exact ⟨h.visible, zero, h.shown⟩
  · exact ⟨h.visible, h.sampled, h.shown⟩
  · simp only [Setup.sample]
    split
    · -- what the registers show is sampled whole
      exact ⟨h.visible, h.visible, h.shown⟩
    · exact ⟨h.visible, h.sampled, h.shown⟩

/-- A property that the registers keep, the whole pipeline keeps. -/
theorem stages_step (zero : Good ⟨0, 0, 0⟩) (h : Stages Good d p) (hs : PortStep p d e)
    (registers : Good (e.setup p).setupNext) : Stages Good e p := by
  cases hs with
  | quiet t fifo setup pc ingress =>
    refine ⟨registers, ?_, ?_, ?_, ?_⟩
    · rw [setup]; exact h.visible
    · rw [setup]; exact h.sampled
    · rw [setup]; exact h.shown
    · rw [ingress]; exact h.latched
  | sample was setup pc ingress =>
    obtain ⟨visible, sampled, shown⟩ := setupfwRule_stages zero h
    rw [← setup] at visible sampled shown
    exact ⟨registers, visible, sampled, shown, by rw [ingress]; exact h.latched⟩
  | judge setup pc ingress =>
    refine ⟨registers, by rw [setup]; exact h.visible, by rw [setup]; exact h.sampled,
      by rw [setup]; exact h.shown, ?_⟩
    have latching : IngressStep.Latching (d.setup p).fwRange (d.ingress p) (e.ingress p) := by
      rw [ingress]
      exact d.latching_judged p
    cases latching with
    | reset pc fwRead => rw [fwRead]; exact zero
    -- the samples shown are latched whole
    | latch pc new result => rw [result]; exact h.shown
    | take w rest outcome seen read passed fwRead => rw [fwRead]; exact h.latched
    | stay pc keeps => rw [keeps.fwRead]; exact h.latched
  | update setup pc ingress =>
    obtain ⟨total, droped, hits, ingress⟩ := ingress
    refine ⟨registers, ?_, ?_, ?_, by rw [ingress]; exact h.latched⟩
    · rw [setup]; exact h.registers
    · rw [setup]; exact h.sampled
    · rw [setup]; exact h.sampled
  | edge clean setup pc ingress =>
    refine ⟨registers, ?_, ?_, ?_, by rw [ingress]; exact h.latched⟩ <;> rw [setup]
    · exact h.visible
    · exact h.sampled
    · exact h.shown

/-- The words taken after the first `n` were judged by triples with the property, and those
forwarded did not match. -/
def JudgedBy (Good : Triple → Prop) (n : Nat) (g : Ingress) : Prop :=
  n ≤ g.taken.length ∧ ∀ j ∈ g.taken.drop n,
    Good j.rule ∧ (j.outcome = .forwarded → fwHit j.rule j.word = false)

theorem judgedBy_of_latching {fw : Triple} {g g' : Ingress} {n : Nat} (h : JudgedBy Good n g)
    (latched : Good g.fwRead) (step : IngressStep.Latching fw g g') : JudgedBy Good n g' := by
  cases step with
  | reset pc fwRead preReadR in_ taken => unfold JudgedBy; rw [taken]; exact h
  | latch pc new result => rw [result]; exact h
  | stay pc keeps => unfold JudgedBy; rw [keeps.taken]; exact h
  | take w rest outcome seen read passed fwRead preReadR in_ taken =>
    -- the word taken is judged by the latched triple
    obtain ⟨bound, judged⟩ := h
    refine ⟨by rw [taken, List.length_append]; omega, fun j member => ?_⟩
    rw [taken, List.drop_append_of_le_length bound] at member
    rcases List.mem_append.mp member with old | new
    · exact judged j old
    · rw [List.mem_singleton.mp new]
      exact ⟨latched, passed⟩

theorem judgedBy_step {n : Nat} (h : JudgedBy Good n (d.ingress p))
    (latched : Good (d.ingress p).fwRead) (hs : PortStep p d e) :
    JudgedBy Good n (e.ingress p) := by
  cases hs with
  | quiet t fifo setup pc ingress => rw [ingress]; exact h
  | sample was setup pc ingress => rw [ingress]; exact h
  | judge setup pc ingress =>
    rw [ingress]
    exact judgedBy_of_latching h latched (d.latching_judged p)
  | update setup pc ingress =>
    obtain ⟨total, droped, hits, ingress⟩ := ingress
    rw [ingress]; exact h
  | edge clean setup pc ingress => rw [ingress]; exact h

end stages

/-- A run writes some setup registers of port `p`, and the registers follow. -/
theorem setupEntries_of_run {d e : Device} {as : List (Action ⊕ (Port × Word))}
    (h : openMachine.run d as = some e) (p : Port) :
    ∃ more, setupEntries p e.bus.served = setupEntries p d.bus.served ++ more ∧
      (e.setup p).setupNext = registersAfter p (d.setup p).setupNext more := by
  obtain ⟨more, served, registers⟩ := served_of_run h
  refine ⟨setupEntries p more, ?_, ?_⟩
  · rw [served]
    exact List.filter_append _ _
  · rw [registersAfter_setupEntries, registers p]

/-- The run rule for one port's pipeline: what its steps preserve while the registers have a
property, a run preserves if the registers have it after every part of the run's writes. -/
theorem run_of_registers {Good : Triple → Prop} {Q : Device → Prop} {p : Port} {d e : Device}
    {as : List (Action ⊕ (Port × Word))} {writes : List (BitVec 64 × Word)}
    (step : ∀ f g, openMachine.Reachable f → Q f → PortStep p f g →
      Good (g.setup p).setupNext → Q g)
    (hd : openMachine.Reachable d) (start : Q d) (hr : openMachine.run d as = some e)
    (served : setupEntries p e.bus.served = setupEntries p d.bus.served ++ writes)
    (good : ∀ part, part <+: writes → Good (registersAfter p (d.setup p).setupNext part)) :
    Q e := by
  -- the invariant speaks of the states whose writes are a part of those of the run
  have inv : openMachine.Reachable e ∧ ∃ part,
      setupEntries p e.bus.served = setupEntries p d.bus.served ++ part ∧
      (e.setup p).setupNext = registersAfter p (d.setup p).setupNext part ∧
      (part <+: writes → Q e) := by
    refine Machine.run_invariant (I := fun f => openMachine.Reachable f ∧ ∃ part,
      setupEntries p f.bus.served = setupEntries p d.bus.served ++ part ∧
      (f.setup p).setupNext = registersAfter p (d.setup p).setupNext part ∧
      (part <+: writes → Q f)) ?_ ⟨hd, [], by simp, rfl, fun _ => start⟩ hr
    rintro f a g ⟨reachable, part, entries, registers, holds⟩ hs
    -- one more step, and the part of the writes that it serves
    have one : openMachine.run f [a] = some g := by simpa using hs
    obtain ⟨more, entries', registers'⟩ := setupEntries_of_run one p
    refine ⟨reachable.run one, part ++ more, by rw [entries', entries, List.append_assoc],
      by rw [registers', registers, registersAfter_append], fun within => ?_⟩
    have port := portStep_of_transition (ready_nodup reachable) (transition_of_openStep hs) p
    refine step f g reachable (holds ((List.prefix_append part more).trans within)) port ?_
    rw [registers', registers, ← registersAfter_append]
    exact good _ within
  obtain ⟨-, part, entries, -, holds⟩ := inv
  obtain rfl : part = writes := List.append_cancel_left (entries.symm.trans served)
  exact holds (List.prefix_refl _)

/-- If the registers keep a property through every part of the writes of a run, then so does
the whole pipeline, and the words taken in the run are judged by triples that have it. -/
theorem judged_of_run {Good : Triple → Prop} (zero : Good ⟨0, 0, 0⟩) {p : Port} {d e : Device}
    {as : List (Action ⊕ (Port × Word))} {writes : List (BitVec 64 × Word)}
    (hd : openMachine.Reachable d) (start : Stages Good d p)
    (hr : openMachine.run d as = some e)
    (served : setupEntries p e.bus.served = setupEntries p d.bus.served ++ writes)
    (good : ∀ part, part <+: writes → Good (registersAfter p (d.setup p).setupNext part)) :
    Stages Good e p ∧ JudgedBy Good (d.ingress p).taken.length (e.ingress p) :=
  run_of_registers
    (Q := fun f => Stages Good f p ∧ JudgedBy Good (d.ingress p).taken.length (f.ingress p))
    (fun _ _ _ h port next =>
      ⟨stages_step zero h.1 port next, judgedBy_step h.2 h.1.latched port⟩)
    hd ⟨start, le_refl _, by simp⟩ hr served good

/-! ### An enabled rule is never torn -/

/-- A rule that does nothing, or the rule of one of the calls. -/
def OneOf (calls : List Triple) (t : Triple) : Prop := t.enabled = true → t ∈ calls

/-- However the writes of the calls fall among clock edges and packets, an enabled rule that
`interface_in` has latched is the triple of a single call. -/
theorem latched_rule_is_of_one_call {d : Device} (h : openMachine.Reachable d) (p : Port)
    (calls : List Triple)
    (issued : setupEntries p d.bus.served <+: calls.flatMap (scSetupFW (inport p))) :
    (d.ingress p).fwRead.enabled = true → (d.ingress p).fwRead ∈ calls := by
  obtain ⟨as, hr⟩ := h
  have zero : OneOf calls ⟨0, 0, 0⟩ := by simp [OneOf, Triple.enabled]
  have start : Stages (OneOf calls) Device.new p := ⟨zero, zero, zero, zero, zero⟩
  have served : setupEntries p d.bus.served =
      setupEntries p Device.new.bus.served ++ setupEntries p d.bus.served := rfl
  have stages := (judged_of_run zero openMachine.reachable_init start hr served ?_).1
  · exact stages.latched
  · intro part within
    -- before the first call the rule is disabled, and during each call it is
    rcases registersAfter_calls p ⟨0, 0, 0⟩ calls (within.trans issued) with same | off | member
    · exact same ▸ zero
    · intro enabled
      have disabled : (registersAfter p ⟨0, 0, 0⟩ part).enabled = false := by rw [Triple.enabled, off]; rfl
      exact absurd (disabled.symm.trans enabled) (by decide)
    · exact fun _ => member

/-- A call that denies port 0 every read and write in the first BRAM. -/
def denyAll : Triple := ⟨0xFF, 0, 0x3FF⟩

/-- Two cycles in which all processes reach their loops, one call, two cycles to latch it. -/
def denied : List Action :=
  cycle [] ++ cycle [] ++ (scSetupFW (inport 0) denyAll).flatMap setupWrite ++ cycle [] ++ cycle []

theorem latched_rule_is_of_one_call_of_denied : ((after denied).ingress 0).fwRead ∈ [denyAll] :=
  latched_rule_is_of_one_call (open_of_reachable (reachable_after (by decide +kernel))) 0 [denyAll]
    (by decide +kernel) (by decide +kernel)

/-! ### A rule being replaced -/

/-- Every stage of the pipeline of port `p` holds `t`. -/
def InForce (d : Device) (p : Port) (t : Triple) : Prop := Stages (· = t) d p

/-- The old rule, a disabled one, or the new rule. -/
def Between (old new t : Triple) : Prop := t = old ∨ t.r = 0 ∨ t = new

/-- From the first write of a call on, a word is judged by the old rule, by a disabled one or
by the new rule; so a word that both rules match is forwarded only while the latched rule
value is the 0 that the call itself has written. -/
theorem judged_between {s t : Device} {as : List (Action ⊕ (Port × Word))} {p : Port}
    {old new : Triple} (hs : openMachine.Reachable s) (inForce : s.InForce p old)
    (hr : openMachine.run s as = some t)
    (call : ∃ part, part <+: scSetupFW (inport p) new ∧
      setupEntries p t.bus.served = setupEntries p s.bus.served ++ part) :
    ∀ j ∈ (t.ingress p).taken.drop (s.ingress p).taken.length,
      Between old new j.rule ∧
        (j.outcome = .forwarded → fwHit old j.word = true → fwHit new j.word = true →
          j.rule.r = 0) := by
  obtain ⟨writes, issued, served⟩ := call
  have start : Stages (Between old new) s p :=
    ⟨Or.inl inForce.registers, Or.inl inForce.visible, Or.inl inForce.sampled,
      Or.inl inForce.shown, Or.inl inForce.latched⟩
  have judged := (judged_of_run (Or.inr (Or.inl rfl)) hs start hr served ?_).2
  · intro j member
    obtain ⟨between, passed⟩ := judged.2 j member
    refine ⟨between, fun forwarded hitOld hitNew => ?_⟩
    -- a forwarded word was matched by neither rule, so only the disabled one is left
    rcases between with same | off | same
    · simp [← same, passed forwarded] at hitOld
    · exact off
    · simp [← same, passed forwarded] at hitNew
  · intro part within
    rw [inForce.registers, List.prefix_iff_eq_take.mp (within.trans issued)]
    exact registersAfter_call p old new part.length

/-- The rule that replaces `denyAll` below. -/
def denyHalf : Triple := ⟨0xFF, 0, 0x1FF⟩

/-- A write of 7 to the cell of offset 1 in the first BRAM. -/
def writeSeven : Word := pack 1 0 0 0 7

/-- The first write of a call, two cycles to latch it, and a packet. -/
def replacing : List Action :=
  setupWrite (fRP 0, 0) ++ cycle [] ++ cycle [] ++ packetWrite 0 writeSeven ++ cycle []

theorem inForce_denied : (after denied).InForce 0 denyAll where
  registers := by decide +kernel
  visible := by decide +kernel
  sampled := by decide +kernel
  shown := by decide +kernel
  latched := by decide +kernel

theorem run_replacing :
    machine.run (after denied) replacing = some (after (denied ++ replacing)) :=
  run_after (by decide +kernel)

/-- The packet is taken while the call is under way. -/
theorem judged_between_replacing :
    ((after (denied ++ replacing)).ingress 0).taken.length = 1 ∧
      ∀ j ∈ ((after (denied ++ replacing)).ingress 0).taken.drop
        ((after denied).ingress 0).taken.length,
      Between denyAll denyHalf j.rule ∧
        (j.outcome = .forwarded → fwHit denyAll j.word = true → fwHit denyHalf j.word = true →
          j.rule.r = 0) :=
  ⟨by decide +kernel,
    judged_between (open_of_reachable (reachable_after (by decide +kernel))) inForce_denied
      (open_of_run run_replacing)
      ⟨(scSetupFW (inport 0) denyHalf).take 1, List.take_prefix .., by decide +kernel⟩⟩

/-- While one rule replaces another, a packet that both match is forwarded. -/
theorem matched_by_both_forwarded :
    ¬ ∀ (s t : Device) (as : List (Action ⊕ (Port × Word))) (p : Port) (old new : Triple),
      openMachine.Reachable s → s.InForce p old → openMachine.run s as = some t →
      (∃ part, part <+: scSetupFW (inport p) new ∧
        setupEntries p t.bus.served = setupEntries p s.bus.served ++ part) →
      ∀ j ∈ (t.ingress p).taken.drop (s.ingress p).taken.length,
        fwHit old j.word = true → fwHit new j.word = true → j.outcome ≠ .forwarded := by
  intro claim
  have safe := claim _ _ _ 0 denyAll denyHalf
    (open_of_reachable (reachable_after (by decide +kernel))) inForce_denied
    (open_of_run run_replacing)
    ⟨(scSetupFW (inport 0) denyHalf).take 1, List.take_prefix .., by decide +kernel⟩
  exact absurd safe (by decide +kernel)

end Device

end ScCosim.Firewall
