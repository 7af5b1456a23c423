import ScCosim.Firewall.Pipeline
import ScCosim.Firewall.Processes

/-!
# Where packets are

Every packet in the device is at a place that its destination leads through, and is a word
that its port has taken, passed and sent on. The invariant is indexed by the places: the
switches rotate the destination field twice, which restores it.
-/
namespace ScCosim.Firewall

open Kernel Async

/-! ### A packet and its origin -/

/-- The word that `interface_in` sends: a read carries its port in the source field. -/
def Origin.sent (o : Origin) : Word :=
  if opcode o.word = 1 then setSrc o.word (portBits o.port) else o.word

@[simp] theorem Origin.opcode_sent (o : Origin) : opcode o.sent = opcode o.word := by
  unfold Origin.sent
  split <;> simp [setSrc]

@[simp] theorem Origin.dest_sent (o : Origin) : dest o.sent = dest o.word := by
  unfold Origin.sent
  split <;> simp [setSrc]

@[simp] theorem Origin.addrOffset_sent (o : Origin) : addrOffset o.sent = addrOffset o.word := by
  unfold Origin.sent
  split <;> simp [setSrc]

/-- Two switches later the destination field is what it was. -/
theorem rotateDest_rotateDest (w : Word) : rotateDest (rotateDest w) = w := by
  have fields := pack_fields w
  unfold rotateDest setDest nextPosition pack addrOffset opcode src dest data at *
  grind

/-- The two bits that the switches look at name the destination. -/
theorem portOf_dest (w : Word) :
    portOf (dest w) = if nextPosition w then (if nextPosition (rotateDest w) then 3 else 2)
      else if nextPosition (rotateDest w) then 1 else 0 := by
  have second : nextPosition (rotateDest w) = w[16] := by
    unfold nextPosition rotateDest setDest pack
    grind
  rw [dest_bits, second, nextPosition]
  cases w[17] <;> cases w[16] <;> rfl

namespace Device

/-- The origin is on the record of its port: a word that was forwarded, and by the rule
latched at that time did not hit. -/
structure Recorded (d : Device) (o : Origin) : Prop where
  taken : (d.ingress o.port).taken[o.seq]? = some ⟨o.word, o.rule, .forwarded⟩
  passed : fwHit o.rule o.word = false

end Device

/-! ### The places -/

section places

variable (G : Origin → Prop)

/-- Before the switches. -/
def Sent (f : Flit) : Prop := G f.origin ∧ f.word = f.origin.sent

/-- Between the stages, on the way to switch `b` of the second one. -/
def Halfway (b : Fin 2) (f : Flit) : Prop :=
  G f.origin ∧ f.word = rotateDest f.origin.sent ∧ (nextPosition f.origin.sent = true ↔ b = 1)

/-- After the switches, at port `k`. -/
def Routed (k : Port) (f : Flit) : Prop := Sent G f ∧ portOf (dest f.word) = k

/-- A read that waits at port `i` for its marker to be written. -/
def Forwarding (i : Port) (f : Flit) : Prop :=
  Sent G f ∧ f.origin.port = i ∧ opcode f.origin.word = 1

/-- The answer of a read, on the way back to its port. -/
def Answers (f : Flit) : Prop :=
  G f.origin ∧ dest f.word = portBits f.origin.port ∧ opcode f.origin.word = 1

/-- A write that `interface_out_k` has done. -/
structure Written (k : Port) (x : OutWrite) : Prop where
  routed : Routed G k x.flit
  op : opcode x.flit.word ≠ 1
  address : x.address = Device.memBase k + (addrOffset x.flit.word).zeroExtend 32

/-- Every packet is where it should be. -/
structure Placed (d : Device) : Prop where
  forwarding : ∀ i f, (d.ingress i).pc = .writeForward f → Forwarding G i f
  inFifo : ∀ i, ∀ f ∈ (d.switch.inFifo i).contents, Sent G f
  outFifoS : ∀ a b, ∀ f ∈ (d.switch.outFifoS a b).contents, Halfway G b f
  outFifo : ∀ k, ∀ f ∈ (d.switch.outFifo k).contents, Routed G k f
  answering : ∀ k f, (d.egress k).pc = .writeResponce f → Answers G f
  responceFifo : ∀ k, ∀ f ∈ (d.responces.responceFifo k).contents, Answers G f
  writes : ∀ k, ∀ x ∈ (d.egress k).writes, Written G k x

end places

theorem Placed.mono {G G' : Origin → Prop} (h : ∀ o, G o → G' o) {d : Device}
    (placed : Placed G d) : Placed G' d where
  forwarding i f at_ := (placed.forwarding i f at_).imp_left (And.imp_left (h _))
  inFifo i f member := (placed.inFifo i f member).imp_left (h _)
  outFifoS a b f member := (placed.outFifoS a b f member).imp_left (h _)
  outFifo k f member := (placed.outFifo k f member).imp_left (And.imp_left (h _))
  answering k f at_ := (placed.answering k f at_).imp_left (h _)
  responceFifo k f member := (placed.responceFifo k f member).imp_left (h _)
  writes k x member :=
    have written := placed.writes k x member
    ⟨written.routed.imp_left (And.imp_left (h _)), written.op, written.address⟩

/-! ### One run of each process -/

namespace IngressStep

theorem writeHit_flits (s : IngressStep) :
    s.writeHit.inFifo = s.inFifo ∧ ∀ f, s.writeHit.ingress.pc ≠ .writeForward f := by
  unfold writeHit
  split
  · exact ⟨rfl, by simp [finishHit]⟩
  · exact ⟨rfl, by simp⟩

theorem writeForward_flits (s : IngressStep) (f : Flit) :
    (∀ g ∈ (s.writeForward f).inFifo.contents, g ∈ s.inFifo.contents ∨ g = f) ∧
      ∀ g, (s.writeForward f).ingress.pc = .writeForward g → g = f := by
  unfold writeForward
  split
  · constructor
    · intro g member
      simpa [forward] using member
    · simp [forward]
  · -- the fifo is full: the process blocks with the packet
    exact ⟨fun g member => Or.inl member, by simp [eq_comm]⟩

/-- A packet that was not there is a word just taken that did not hit. -/
def New (i : Port) (source : BitVec 2) (s t : IngressStep) (f : Flit) : Prop :=
  ∃ w, f = s.flit i source w ∧ fwHit s.ingress.fwRead w = false ∧
    t.ingress.taken = s.ingress.taken ++ [⟨w, s.ingress.fwRead, .forwarded⟩]

theorem run_flits (i : Port) (source : BitVec 2) (fw : Triple) (responceS : Word)
    (s : IngressStep) :
    (∀ f ∈ (run i source fw responceS s).inFifo.contents, f ∈ s.inFifo.contents ∨
      s.ingress.pc = .writeForward f ∨ New i source s (run i source fw responceS s) f) ∧
    ∀ f, (run i source fw responceS s).ingress.pc = .writeForward f →
      s.ingress.pc = .writeForward f ∨
        (New i source s (run i source fw responceS s) f ∧ opcode f.origin.word = 1) := by
  have spec := run_spec i source fw responceS s
  generalize run i source fw responceS s = t at spec ⊢
  cases spec with
  | reset | init | wait1 => exact ⟨fun f member => Or.inl member, by simp [reset]⟩
  | latch pc | idle pc | repeated w rest pc =>
    exact ⟨fun f member => Or.inl member, by simp [latch, take, pc]⟩
  | hit | drop => exact ⟨fun f member => Or.inl member, by simp [finishHit, drop]⟩
  -- a denied read sends a marker and no packet
  | hitRead w rest =>
    obtain ⟨same, other⟩ := ((s.take rest w .hit).count w).writeHit_flits
    exact ⟨fun f member => Or.inl (same ▸ member), fun f at_ => absurd at_ (other f)⟩
  | resumeHit =>
    obtain ⟨same, other⟩ := s.writeHit_flits
    exact ⟨fun f member => Or.inl (same ▸ member), fun f at_ => absurd at_ (other f)⟩
  | forward w rest pc seen read miss =>
    constructor
    · intro f member
      rcases List.mem_append.mp (Fifo.push_contents .. ▸ member) with old | new
      · exact Or.inl old
      · exact Or.inr (Or.inr ⟨w, List.mem_singleton.mp new, miss, rfl⟩)
    · simp [forward]
  | forwardRead w rest pc seen read miss op =>
    -- the marker of a read goes first; the packet may have to wait for it
    have taken := (((s.take rest w .forwarded).count w).keeps_writeForward (s.flit i source w)).taken
    obtain ⟨members, blocked⟩ :=
      ((s.take rest w .forwarded).count w).writeForward_flits (s.flit i source w)
    have new : New i source s _ (s.flit i source w) := ⟨w, rfl, miss, taken⟩
    constructor
    · intro f member
      rcases members f member with old | rfl
      · exact Or.inl old
      · exact Or.inr (Or.inr new)
    · intro f at_
      obtain rfl := blocked f at_
      exact Or.inr ⟨new, op⟩
  | resumeForward f pc =>
    obtain ⟨members, blocked⟩ := s.writeForward_flits f
    constructor
    · intro g member
      rcases members g member with old | rfl
      · exact Or.inl old
      · exact Or.inr (Or.inl pc)
    · intro g at_
      exact Or.inl (by rw [pc, blocked g at_])

end IngressStep

namespace SwitchStep

theorem pass_flits (s : SwitchStep) (f : Flit) :
    (∀ g ∈ (s.pass f).out0.contents,
      g ∈ s.out0.contents ∨ (nextPosition f.word = false ∧ g = moved f)) ∧
    (∀ g ∈ (s.pass f).out1.contents,
      g ∈ s.out1.contents ∨ (nextPosition f.word = true ∧ g = moved f)) := by
  have written : ∀ (out : Fifo Flit) (g : Flit), g ∈ (out.nbWrite (moved f)).contents →
      g ∈ out.contents ∨ g = moved f := by
    intro out g member
    -- `nb_write` drops the packet if the output is full
    rcases out.nbWrite_contents (moved f) with more | same
    · simpa [more] using member
    · exact Or.inl (same ▸ member)
  obtain ⟨-, -, out⟩ := s.pass_spec f
  cases bit : nextPosition f.word with
  | true =>
    simp only [bit, if_true] at out
    rw [out.1, out.2]
    constructor
    · intro g member
      exact Or.inl member
    · intro g member
      exact (written _ g member).imp_right fun same => ⟨rfl, same⟩
  | false =>
    simp only [bit, Bool.false_eq_true, if_false] at out
    rw [out.1, out.2]
    constructor
    · intro g member
      exact (written _ g member).imp_right fun same => ⟨rfl, same⟩
    · intro g member
      exact Or.inl member

/-- What is in the outputs came from an input, rotated, through the exit that its
destination picks. -/
theorem run_flits (s : SwitchStep) :
    (∀ f ∈ s.run.in0.contents, f ∈ s.in0.contents) ∧
    (∀ f ∈ s.run.in1.contents, f ∈ s.in1.contents) ∧
    (∀ g ∈ s.run.out0.contents, g ∈ s.out0.contents ∨
      ∃ f, (f ∈ s.in0.contents ∨ f ∈ s.in1.contents) ∧ nextPosition f.word = false ∧ g = moved f) ∧
    (∀ g ∈ s.run.out1.contents, g ∈ s.out1.contents ∨
      ∃ f, (f ∈ s.in0.contents ∨ f ∈ s.in1.contents) ∧ nextPosition f.word = true ∧ g = moved f) := by
  have spec := s.run_spec
  generalize s.run = t at spec ⊢
  cases spec with
  | rest => exact ⟨fun _ => id, fun _ => id, fun _ => Or.inl, fun _ => Or.inl⟩
  | first f rest pc read =>
    obtain ⟨contents, -⟩ := Fifo.contents_of_nbRead read
    obtain ⟨in0, in1, -⟩ := { s with in0 := rest }.pass_spec f
    obtain ⟨out0, out1⟩ := { s with in0 := rest }.pass_flits f
    simp only [in0, in1, contents]
    refine ⟨fun g => List.mem_cons_of_mem f, fun g => id, fun g member => ?_, fun g member => ?_⟩
    · exact (out0 g member).imp_right fun new => ⟨f, Or.inl (List.mem_cons_self ..), new⟩
    · exact (out1 g member).imp_right fun new => ⟨f, Or.inl (List.mem_cons_self ..), new⟩
  | second f rest pc read =>
    obtain ⟨contents, -⟩ := Fifo.contents_of_nbRead read
    obtain ⟨in0, in1, -⟩ := { s with in1 := rest }.pass_spec f
    obtain ⟨out0, out1⟩ := { s with in1 := rest }.pass_flits f
    simp only [in0, in1, contents]
    refine ⟨fun g => id, fun g => List.mem_cons_of_mem f, fun g member => ?_, fun g member => ?_⟩
    · exact (out0 g member).imp_right fun new => ⟨f, Or.inr (List.mem_cons_self ..), new⟩
    · exact (out1 g member).imp_right fun new => ⟨f, Or.inr (List.mem_cons_self ..), new⟩

end SwitchStep

namespace EgressStep

theorem writeResponce_flits (s : EgressStep) (f : Flit) :
    (∀ g ∈ (s.writeResponce f).responceFifo.contents, g ∈ s.responceFifo.contents ∨ g = f) ∧
    (∀ g, (s.writeResponce f).egress.pc = .writeResponce g → g = f) ∧
    (s.writeResponce f).outFifo = s.outFifo ∧
    (s.writeResponce f).egress.writes = s.egress.writes := by
  rcases s.writeResponce_spec f with room | full
  · rw [room]
    exact ⟨fun g member => by simpa using member, by simp, rfl, rfl⟩
  · rw [full]
    exact ⟨fun g => Or.inl, by simp [eq_comm], rfl, rfl⟩

/-- A packet that leaves the switch is answered if it is a read, and written otherwise. -/
theorem run_flits (base : Word) (s : EgressStep) :
    (∀ f ∈ (run base s).outFifo.contents, f ∈ s.outFifo.contents) ∧
    (∀ g, g ∈ (run base s).responceFifo.contents ∨ (run base s).egress.pc = .writeResponce g →
      g ∈ s.responceFifo.contents ∨ s.egress.pc = .writeResponce g ∨
        ∃ f ∈ s.outFifo.contents, opcode f.word = 1 ∧
          ∃ cell, g = { f with word := answer f.word cell }) ∧
    (∀ x ∈ (run base s).egress.writes, x ∈ s.egress.writes ∨
      ∃ f ∈ s.outFifo.contents, opcode f.word ≠ 1 ∧
        x = ⟨base + (addrOffset f.word).zeroExtend 32, f⟩) := by
  have spec := run_spec base s
  generalize run base s = t at spec ⊢
  cases spec with
  | start pc | init pc | rest pc | lower pc =>
    exact ⟨fun f => id, fun g held => Or.inl (by simpa [pc] using held), fun x => Or.inl⟩
  | read f rest cell pc free read op =>
    obtain ⟨contents, -⟩ := Fifo.contents_of_nbRead read
    obtain ⟨members, blocked, out, writes⟩ := writeResponce_flits
      { s with outFifo := rest, egress.isWriteOp := false }
      { f with word := answer f.word cell }
    refine ⟨fun g member => ?_, fun g held => ?_, fun x member => Or.inl (writes ▸ member)⟩
    · rw [contents]
      rw [out] at member
      exact List.mem_cons_of_mem f member
    · rcases held with member | at_
      · rcases members g member with old | same
        · exact Or.inl old
        · exact Or.inr (Or.inr ⟨f, contents ▸ List.mem_cons_self .., op, _, same⟩)
      · exact Or.inr (Or.inr ⟨f, contents ▸ List.mem_cons_self .., op, _, blocked g at_⟩)
  | write f rest pc free read op =>
    obtain ⟨contents, -⟩ := Fifo.contents_of_nbRead read
    refine ⟨fun g member => contents ▸ List.mem_cons_of_mem f member,
      fun g held => Or.inl (by simpa [EgressStep.write, pc] using held), fun x member => ?_⟩
    rcases List.mem_append.mp member with old | new
    · exact Or.inl old
    · exact Or.inr ⟨f, contents ▸ List.mem_cons_self .., op, List.mem_singleton.mp new⟩
  | resume f pc =>
    obtain ⟨members, blocked, out, writes⟩ := s.writeResponce_flits f
    refine ⟨fun g member => out ▸ member, fun g held => ?_, fun x member => Or.inl (writes ▸ member)⟩
    rcases held with member | at_
    · rcases members g member with old | rfl
      · exact Or.inl old
      · exact Or.inr (Or.inl pc)
    · exact Or.inr (Or.inl (blocked g at_ ▸ pc))

end EgressStep

theorem Responces.run_flits (r : Responces) (k : Port) :
    ∀ f ∈ (r.run.1.responceFifo k).contents, f ∈ (r.responceFifo k).contents := by
  have spec := r.run_spec
  generalize r.run = t at spec ⊢
  cases spec with
  | reset | rest | marker => exact fun f => id
  | answer n f rest none read =>
    obtain ⟨contents, -⟩ := Fifo.contents_of_nbRead read
    intro g member
    -- only the fifo of the memory that answers is read
    by_cases same : k = n
    · subst same
      rw [contents]
      exact List.mem_cons_of_mem f (by simpa [publishAnswer, publish] using member)
    · simpa [publishAnswer, publish, same] using member

namespace Device

/-! ### Each step keeps every packet at its place -/

/-- No packet has moved between the places. -/
structure Still (d e : Device) : Prop where
  forwarding : ∀ i, (e.ingress i).pc = (d.ingress i).pc
  inFifo : ∀ i, (e.switch.inFifo i).contents = (d.switch.inFifo i).contents
  outFifoS : ∀ a b, (e.switch.outFifoS a b).contents = (d.switch.outFifoS a b).contents
  outFifo : ∀ k, (e.switch.outFifo k).contents = (d.switch.outFifo k).contents
  answering : ∀ k, (e.egress k).pc = (d.egress k).pc
  responceFifo : ∀ k,
    (e.responces.responceFifo k).contents = (d.responces.responceFifo k).contents
  writes : ∀ k, (e.egress k).writes = (d.egress k).writes

variable {G : Origin → Prop} {d e : Device}

theorem placed_of_still (h : Placed G d) (still : Still d e) : Placed G e where
  forwarding i := by rw [still.forwarding]; exact h.forwarding i
  inFifo i := by rw [still.inFifo]; exact h.inFifo i
  outFifoS a b := by rw [still.outFifoS]; exact h.outFifoS a b
  outFifo k := by rw [still.outFifo]; exact h.outFifo k
  answering k := by rw [still.answering]; exact h.answering k
  responceFifo k := by rw [still.responceFifo]; exact h.responceFifo k
  writes k := by rw [still.writes]; exact h.writes k

/-- Only these processes move packets. -/
def moves : Proc → Bool
  | .interfaceIn _ | .entrySw _ | .interfaceOut _ | .entryResponse => true
  | _ => false

theorem still_process (d : Device) {q : Proc} (h : moves q = false) : Still d (d.process q) := by
  have rest : ∀ {e : Device}, (∀ i, (e.ingress i).pc = (d.ingress i).pc) →
      e.switch = d.switch → e.egress = d.egress → e.responces = d.responces → Still d e := by
    intro e pc switch egress responces
    exact ⟨pc, by simp [switch], by simp [switch], by simp [switch], by simp [egress],
      by simp [responces], by simp [egress]⟩
  cases q with
  | interfaceIn i | entrySw k | interfaceOut k | entryResponse => cases h
  | client => exact rest (fun _ => rfl) rfl rfl rfl
  | setupfwRule =>
    simp only [process, setupfwRule]
    split <;> exact rest (fun _ => rfl) rfl rfl rfl
  | executeReadThread =>
    obtain ⟨_, _, _, direct, same, _⟩ := d.executeReadThread_frame
    rw [process, same]
    exact rest (fun _ => rfl) rfl rfl rfl
  | executeWriteThread =>
    refine rest (fun i => ?_) ?_ ?_ ?_
    · -- the word that the write thread adds to `in_i` is no packet yet
      obtain ⟨_, fifo, _, _, ingress, _⟩ := d.executeWriteThread_port i
      rw [process, ingress]
    all_goals
      obtain ⟨_, _, _, setup, ingress, direct, same, _⟩ := d.executeWriteThread_frame
      rw [process, same]
  | directMemOut k =>
    rw [process_directMemOut]
    exact rest (fun _ => rfl) rfl rfl rfl
  | directentry k => exact rest (fun _ => rfl) rfl rfl rfl
  | entry k =>
    -- `out_read` and the memory handshake are all that `entry` changes
    have handshake : ∀ j, ((d.entry k).egress j).pc = (d.egress j).pc ∧
        ((d.entry k).egress j).writes = (d.egress j).writes := by
      intro j
      by_cases same : j = k
      · subst same
        simp [entry]
      · simp [entry, same]
    exact ⟨fun _ => rfl, fun _ => rfl, fun _ _ => rfl, fun _ => rfl, fun j => (handshake j).1,
      fun _ => rfl, fun j => (handshake j).2⟩

/-- The packet is of a word that `interface_in_i` takes and lets pass when it runs now. -/
def Enters (d : Device) (i : Port) (f : Flit) : Prop :=
  IngressStep.New i (portBits i)
    ⟨d.ingress i, d.switch.inFifo i, d.responces.initResponceFifo i, false⟩ (d.judged i) f

theorem Enters.sent {i : Port} {f : Flit} (new : d.Enters i f) (known : G f.origin) :
    Sent G f ∧ f.origin.port = i := by
  obtain ⟨w, rfl, -⟩ := new
  exact ⟨⟨known, rfl⟩, rfl⟩

theorem Enters.recorded {i : Port} {f : Flit} (new : d.Enters i f)
    (own : e.ingress i = (d.judged i).ingress) : Recorded e f.origin := by
  obtain ⟨w, rfl, miss, taken⟩ := new
  constructor
  · simp [IngressStep.flit, own, taken]
  · exact miss

theorem placed_interfaceIn (i : Port) (h : Placed G d) (new : ∀ f, d.Enters i f → G f.origin) :
    Placed G (d.interfaceIn i (portBits i)) := by
  have own : (d.interfaceIn i (portBits i)).ingress i = (d.judged i).ingress := by
    simp [interfaceIn, judged]
  obtain ⟨members, blocked⟩ := IngressStep.run_flits i (portBits i) (d.setup i).fwRange
    (d.responces.responceS i).cur
    ⟨d.ingress i, d.switch.inFifo i, d.responces.initResponceFifo i, false⟩
  refine ⟨fun j f at_ => ?_, fun j f member => ?_, h.outFifoS, h.outFifo, h.answering,
    h.responceFifo, h.writes⟩
  · by_cases same : j = i
    · subst same
      rcases blocked f (own ▸ at_) with old | ⟨enters, op⟩
      · exact h.forwarding j f old
      · -- a word taken in this run
        have sent := Enters.sent enters (new f enters)
        exact ⟨sent.1, sent.2, op⟩
    · exact h.forwarding j f (by simpa [interfaceIn, same] using at_)
  · by_cases same : j = i
    · subst same
      rcases members f (by simpa [interfaceIn] using member) with old | held | enters
      · exact h.inFifo j f old
      · exact (h.forwarding j f held).1
      · exact (Enters.sent enters (new f enters)).1
    · exact h.inFifo j f (by simpa [interfaceIn, same] using member)

theorem placed_firstStage (k : Fin 4) (a : Fin 2) (p q : Port) (h : Placed G d) :
    Placed G { d with switch := d.switch.firstStage k a p q } := by
  obtain ⟨in0, in1, out0, out1⟩ := SwitchStep.run_flits
    ⟨d.switch.inFifo p, d.switch.inFifo q, d.switch.outFifoS a 0, d.switch.outFifoS a 1,
      d.switch.pc k⟩
  have from_ : ∀ f, f ∈ (d.switch.inFifo p).contents ∨ f ∈ (d.switch.inFifo q).contents →
      Sent G f := fun f was => was.elim (h.inFifo p f) (h.inFifo q f)
  refine ⟨h.forwarding, fun i f member => ?_, fun c b f member => ?_, h.outFifo, h.answering,
    h.responceFifo, h.writes⟩
  · simp only [Switch.firstStage] at member
    -- a switch only takes packets out of its two inputs
    by_cases second : i = q
    · subst second
      exact h.inFifo i f (in1 f (by simpa using member))
    by_cases first : i = p
    · subst first
      exact h.inFifo i f (in0 f (by simpa [second] using member))
    · exact h.inFifo i f (by simpa [first, second] using member)
  · simp only [Switch.firstStage] at member
    -- and puts them into the row of outputs that is its own
    by_cases own : c = a
    · subst own
      simp only [Function.update_self] at member
      split at member
      next zero =>
        subst zero
        rcases out0 f member with old | ⟨g, was, bit, rfl⟩
        · exact h.outFifoS c 0 f old
        · obtain ⟨record, word⟩ := from_ g was
          exact ⟨record, by simp [SwitchStep.moved, word], by simp [SwitchStep.moved, ← word, bit]⟩
      next other =>
        obtain rfl : b = 1 := by omega
        rcases out1 f member with old | ⟨g, was, bit, rfl⟩
        · exact h.outFifoS c 1 f old
        · obtain ⟨record, word⟩ := from_ g was
          exact ⟨record, by simp [SwitchStep.moved, word], by simp [SwitchStep.moved, ← word, bit]⟩
    · exact h.outFifoS c b f (by simpa [own] using member)

/-- The two ports of a second-stage switch are those that its packets' destinations name. -/
theorem placed_secondStage (k : Fin 4) (b : Fin 2) (p q : Port)
    (first : ∀ w, (nextPosition w = true ↔ b = 1) → nextPosition (rotateDest w) = false →
      portOf (dest w) = p)
    (second : ∀ w, (nextPosition w = true ↔ b = 1) → nextPosition (rotateDest w) = true →
      portOf (dest w) = q) (h : Placed G d) :
    Placed G { d with switch := d.switch.secondStage k b p q } := by
  obtain ⟨in0, in1, out0, out1⟩ := SwitchStep.run_flits
    ⟨d.switch.outFifoS 0 b, d.switch.outFifoS 1 b, d.switch.outFifo p, d.switch.outFifo q,
      d.switch.pc k⟩
  have from_ : ∀ f, f ∈ (d.switch.outFifoS 0 b).contents ∨ f ∈ (d.switch.outFifoS 1 b).contents →
      Halfway G b f := fun f was => was.elim (h.outFifoS 0 b f) (h.outFifoS 1 b f)
  have through : ∀ g, Halfway G b g → Sent G (SwitchStep.moved g) ∧
      portOf (dest (SwitchStep.moved g).word) = if nextPosition g.word then q else p := by
    rintro g ⟨record, word, bit⟩
    -- the second rotation undoes the first
    have whole : (SwitchStep.moved g).word = g.origin.sent := by
      simp [SwitchStep.moved, word, rotateDest_rotateDest]
    constructor
    · exact ⟨record, whole⟩
    · rw [whole, word]
      split
      next up => exact second _ bit up
      next down => exact first _ bit (by simpa using down)
  refine ⟨h.forwarding, h.inFifo, fun a c f member => ?_, fun j f member => ?_, h.answering,
    h.responceFifo, h.writes⟩
  · simp only [Switch.secondStage] at member
    by_cases own : c = b
    · subst own
      simp only [if_true] at member
      split at member
      next zero =>
        subst zero
        exact h.outFifoS 0 c f (in0 f member)
      next other =>
        obtain rfl : a = 1 := by omega
        exact h.outFifoS 1 c f (in1 f member)
    · exact h.outFifoS a c f (by simpa [own] using member)
  · simp only [Switch.secondStage] at member
    by_cases atQ : j = q
    · subst atQ
      rcases out1 f (by simpa using member) with old | ⟨g, was, bit, rfl⟩
      · exact h.outFifo j f old
      · simpa [Routed, bit] using through g (from_ g was)
    by_cases atP : j = p
    · subst atP
      rcases out0 f (by simpa [atQ] using member) with old | ⟨g, was, bit, rfl⟩
      · exact h.outFifo j f old
      · simpa [Routed, bit] using through g (from_ g was)
    · exact h.outFifo j f (by simpa [atP, atQ] using member)

theorem placed_entrySw (k : Fin 4) (h : Placed G d) : Placed G (d.process (.entrySw k)) := by
  -- the wiring of `sw_0` .. `sw_3`
  match k with
  | 0 => exact placed_firstStage 0 0 0 1 h
  | 1 => exact placed_firstStage 1 1 2 3 h
  | 2 =>
    exact placed_secondStage 2 0 0 1 (fun w one two => by simp [portOf_dest, one, two])
      (fun w one two => by simp [portOf_dest, one, two]) h
  | 3 =>
    exact placed_secondStage 3 1 2 3 (fun w one two => by simp [portOf_dest, one, two])
      (fun w one two => by simp [portOf_dest, one, two]) h

theorem placed_interfaceOut (k : Port) (h : Placed G d) :
    Placed G (d.interfaceOut k (memBase k)) := by
  obtain ⟨out, answered, writes⟩ := EgressStep.run_flits (memBase k)
    ⟨d.egress k, d.switch.outFifo k, d.responces.responceFifo k, d.mem k, false⟩
  -- a read that leaves the switch carries its port as source, and its answer as destination
  have answers : ∀ g, (g ∈ (d.responces.responceFifo k).contents ∨
      (d.egress k).pc = .writeResponce g ∨ ∃ f ∈ (d.switch.outFifo k).contents,
        opcode f.word = 1 ∧ ∃ cell, g = { f with word := EgressStep.answer f.word cell }) →
      Answers G g := by
    rintro g (old | held | ⟨f, member, op, cell, rfl⟩)
    · exact h.responceFifo k g old
    · exact h.answering k g held
    · obtain ⟨⟨record, word⟩, -⟩ := h.outFifo k f member
      rw [word, Origin.opcode_sent] at op
      exact ⟨record, by simp [EgressStep.answer, word, Origin.sent, op, setSrc], op⟩
  refine ⟨h.forwarding, h.inFifo, h.outFifoS, fun j f member => ?_, fun j f at_ => ?_,
    fun j f member => ?_, fun j x member => ?_⟩
  all_goals by_cases same : j = k
  · subst same
    exact h.outFifo j f (out f (by simpa [interfaceOut] using member))
  · exact h.outFifo j f (by simpa [interfaceOut, same] using member)
  · subst same
    exact answers f (answered f (Or.inr (by simpa [interfaceOut] using at_)))
  · exact h.answering j f (by simpa [interfaceOut, same] using at_)
  · subst same
    exact answers f (answered f (Or.inl (by simpa [interfaceOut] using member)))
  · exact h.responceFifo j f (by simpa [interfaceOut, same] using member)
  · subst same
    rcases writes x (by simpa [interfaceOut] using member) with old | ⟨f, from_, op, rfl⟩
    · exact h.writes j x old
    · exact ⟨h.outFifo j f from_, op, rfl⟩
  · exact h.writes j x (by simpa [interfaceOut, same] using member)

/-- What is on record stays on record. -/
theorem recorded_step {o : Origin} (h : Recorded d o) (hs : PortStep o.port d e) :
    Recorded e o := by
  -- no process removes an entry of the record
  have longer : ∃ more, (e.ingress o.port).taken = (d.ingress o.port).taken ++ more := by
    cases hs with
    | quiet t fifo setup pc ingress => exact ⟨[], by simp [ingress]⟩
    | sample was setup pc ingress => exact ⟨[], by simp [ingress]⟩
    | edge clean setup pc ingress => exact ⟨[], by simp [ingress]⟩
    | update setup pc ingress =>
      obtain ⟨total, droped, hits, ingress⟩ := ingress
      exact ⟨[], by simp [ingress]⟩
    | judge setup pc ingress =>
      rw [ingress]
      cases d.latching_judged o.port with
      | reset pc fwRead preReadR in_ taken => exact ⟨[], by simp [taken]⟩
      | latch pc new result => exact ⟨[], by simp [result]⟩
      | take w rest outcome seen read passed fwRead preReadR in_ taken => exact ⟨_, taken⟩
      | stay pc keeps => exact ⟨[], by simp [keeps.taken]⟩
  obtain ⟨more, longer⟩ := longer
  constructor
  · rw [longer, List.getElem?_append_left (List.getElem?_eq_some_iff.mp h.taken).1]
    exact h.taken
  · exact h.passed

/-- The packets stay placed if those that enter are known. -/
theorem placed_step (h : Placed G d) (hs : Transition d e)
    (new : ∀ i f, e.ingress i = (d.judged i).ingress → d.Enters i f → G f.origin) :
    Placed G e := by
  cases hs with
  | run q =>
    suffices after : Placed G (d.process q) from
      ⟨after.forwarding, after.inFifo, after.outFifoS, after.outFifo, after.answering,
        after.responceFifo, after.writes⟩
    cases moving : moves q with
    | false => exact placed_of_still h (d.still_process moving)
    | true =>
      cases q with
      | interfaceIn i =>
        rw [process_interfaceIn]
        exact placed_interfaceIn i h fun f => new i f (by simp [exec, interfaceIn, judged])
      | entrySw k => exact placed_entrySw k h
      | interfaceOut k =>
        rw [process_interfaceOut]
        exact placed_interfaceOut k h
      | entryResponse =>
        exact ⟨h.forwarding, h.inFifo, h.outFifoS, h.outFifo, h.answering,
          fun k f member => h.responceFifo k f (d.responces.run_flits k f member), h.writes⟩
      | _ => cases moving
  | request t =>
    exact placed_of_still h
      ⟨fun _ => rfl, fun _ => rfl, fun _ _ => rfl, fun _ => rfl, fun _ => rfl, fun _ => rfl,
        fun _ => rfl⟩
  | edge =>
    exact placed_of_still h
      ⟨fun _ => rfl, fun _ => rfl, fun _ _ => rfl, fun _ => rfl, fun _ => rfl, fun _ => rfl,
        fun _ => rfl⟩
  | delta =>
    exact placed_of_still h
      ⟨fun _ => rfl, fun _ => Fifo.update_contents _, fun _ _ => Fifo.update_contents _,
        fun _ => Fifo.update_contents _, fun _ => rfl, fun _ => Fifo.update_contents _,
        fun _ => rfl⟩
  -- the word is still in `in_i`
  | arrive i w =>
    refine placed_of_still h
      ⟨fun j => ?_, fun _ => rfl, fun _ _ => rfl, fun _ => rfl, fun _ => rfl, fun _ => rfl,
        fun _ => rfl⟩
    by_cases same : j = i
    · subst same
      simp [arrive]
    · simp [arrive, same]

/-- In every run each packet is where it should be, and its word is on record. -/
theorem placed_of_reachable {d : Device} (h : openMachine.Reachable d) : Placed (Recorded d) d := by
  refine (h.invariant (I := fun d => d.ready.Nodup ∧ Placed (Recorded d) d)
    ⟨List.nodup_nil, ?_⟩ ?_).2
  · exact ⟨by simp [openMachine, Device.new, Ingress.new],
      by simp [openMachine, Device.new, Switch.new], by simp [openMachine, Device.new, Switch.new],
      by simp [openMachine, Device.new, Switch.new], by simp [openMachine, Device.new, Egress.new],
      by simp [openMachine, Device.new, Responces.new],
      by simp [openMachine, Device.new, Egress.new]⟩
  · rintro d a e ⟨nodup, placed⟩ hs
    have transition := transition_of_openStep hs
    have kept : ∀ o, Recorded d o → Recorded e o := fun o record =>
      recorded_step record (portStep_of_transition nodup transition o.port)
    exact ⟨nodup_step nodup transition,
      placed_step (placed.mono kept) transition fun i f own enters => enters.recorded own⟩

end Device

end ScCosim.Firewall
