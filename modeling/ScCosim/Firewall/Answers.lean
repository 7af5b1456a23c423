import ScCosim.Kernel.Trace
import ScCosim.Firewall.Routing

/-!
# The answers of reads

An answer is made when `interface_out` takes the read from its output FIFO, from the cell as
it is then, and carries the read's origin through the response FIFOs to the register of the
port that asked. The invariant points from every answer under way to that moment of the run.
-/
namespace ScCosim.Firewall

open Kernel Async

/-! ### One run of `interface_out` -/

/-- The answers after a run: those from before, and the one of a read that this run has taken,
with the cell's data. -/
theorem EgressStep.run_answers (base : Word) (s : EgressStep) {g : Flit}
    (held : g ∈ (run base s).responceFifo.contents ∨ (run base s).egress.pc = .writeResponce g) :
    (g ∈ s.responceFifo.contents ∨ s.egress.pc = .writeResponce g) ∨
      ∃ f rest, s.outFifo.nbRead = some (f, rest) ∧ (run base s).outFifo = rest ∧
        opcode f.word = 1 ∧
        g = { f with word := answer f.word (s.mem ((addrOffset f.word).zeroExtend 32)) } := by
  have spec := run_spec base s
  generalize run base s = t at spec held ⊢
  cases spec with
  | start pc | init pc | rest pc | lower pc => exact Or.inl (Or.inl (by simpa [pc] using held))
  | write f rest pc => exact Or.inl (Or.inl (by simpa [EgressStep.write, pc] using held))
  | read f rest cell pc free read op value =>
    obtain ⟨members, blocked, out, -⟩ := writeResponce_flits
      { s with outFifo := rest, egress.isWriteOp := false }
      { f with word := answer f.word cell }
    have index : base + (addrOffset f.word).zeroExtend 32 - base =
        (addrOffset f.word).zeroExtend 32 := by
      rw [BitVec.add_comm, BitVec.add_sub_cancel]
    rw [index] at value
    rcases held with member | at_
    · rcases members g member with old | rfl
      · exact Or.inl (Or.inl old)
      · exact Or.inr ⟨f, rest, read, out, op, by rw [value]⟩
    · obtain rfl := blocked g at_
      exact Or.inr ⟨f, rest, read, out, op, by rw [value]⟩
  | resume f pc =>
    obtain ⟨members, blocked, -, -⟩ := s.writeResponce_flits f
    rcases held with member | at_
    · rcases members g member with old | rfl
      · exact Or.inl (Or.inl old)
      · exact Or.inl (Or.inr pc)
    · exact Or.inl (Or.inr (by rw [pc, blocked g at_]))

namespace Device

/-! ### When an answer was made -/

/-- In the course of the run, `interface_out` of the BRAM that the read names has taken the
read, and the answer carries the data that its cell had then. -/
structure LookedUp (as : List (Action ⊕ (Port × Word))) (g : Flit) : Prop where
  moment : ∃ earlier later c e f, as = earlier ++ .inl (.run (.interfaceOut (portOf (dest g.origin.word)))) :: later ∧
    openMachine.run new earlier = some c ∧
    openMachine.step c (.inl (.run (.interfaceOut (portOf (dest g.origin.word))))) = some e ∧
    (c.switch.outFifo (portOf (dest g.origin.word))).readOff
      (e.switch.outFifo (portOf (dest g.origin.word))) = [f] ∧ f.origin = g.origin ∧
    data g.word = data (c.mem (portOf (dest g.origin.word)) ((addrOffset g.origin.word).zeroExtend 32))

theorem LookedUp.snoc {as : List (Action ⊕ (Port × Word))} {g : Flit} (h : LookedUp as g)
    (a : Action ⊕ (Port × Word)) : LookedUp (as ++ [a]) g := by
  obtain ⟨earlier, later, c, e, f, rfl, rest⟩ := h.moment
  exact ⟨earlier, later ++ [a], c, e, f, by simp, rest⟩

/-- An answer is in `responce_fifo_k`, or `interface_out_k` is blocked with it. -/
def Answering (d : Device) (k : Port) (g : Flit) : Prop :=
  g ∈ (d.responces.responceFifo k).contents ∨ (d.egress k).pc = .writeResponce g

theorem answering_of_step {d e : Device} {a : Action ⊕ (Port × Word)} {k : Port} {g : Flit}
    (hs : openMachine.step d a = some e) (held : e.Answering k g) :
    d.Answering k g ∨ a = .inl (.run (.interfaceOut k)) ∧ ∃ f rest,
      (d.switch.outFifo k).nbRead = some (f, rest) ∧ e.switch.outFifo k = rest ∧
      opcode f.word = 1 ∧ g = { f with
        word := EgressStep.answer f.word (d.mem k ((addrOffset f.word).zeroExtend 32)) } := by
  have still : Still d e → d.Answering k g := by
    intro still
    rw [Answering, still.responceFifo, still.answering] at held
    exact held
  rcases a with a | ⟨i, w⟩
  · cases move_of_step hs with
    | run q runnable =>
      cases moving : moves q with
      | false =>
        have kept := d.still_process moving
        exact Or.inl (still ⟨kept.forwarding, kept.inFifo, kept.outFifoS, kept.outFifo,
          kept.answering, kept.responceFifo, kept.writes⟩)
      | true =>
        cases q with
        | interfaceIn i =>
          simp only [exec, process_interfaceIn] at held
          exact Or.inl held
        | entrySw j =>
          rw [Answering, exec, process_entrySw] at held
          exact Or.inl held
        | entryResponse => exact Or.inl (held.imp_left (d.responces.run_flits k g))
        | interfaceOut j =>
          simp only [exec, process_interfaceOut] at held ⊢
          by_cases same : k = j
          · subst same
            rcases EgressStep.run_answers (memBase k)
              ⟨d.egress k, d.switch.outFifo k, d.responces.responceFifo k, d.mem k, false⟩
              (by simpa [Answering, interfaceOut] using held) with old | ⟨f, rest, read, out, op, word⟩
            · exact Or.inl old
            · exact Or.inr ⟨rfl, f, rest, read, by simpa [interfaceOut] using out, op, word⟩
          · exact Or.inl (by simpa [Answering, interfaceOut, same] using held)
        | _ => cases moving
    | request | edge => exact Or.inl held
    | delta =>
      exact Or.inl (held.imp_left fun member => by
        simpa [update] using member)
  · simp only [openMachine, openStep] at hs
    split at hs
    next => cases hs; exact Or.inl held
    next => cases hs

theorem lookedUp_of_run {d : Device} {as : List (Action ⊕ (Port × Word))}
    (hr : openMachine.run new as = some d) : ∀ k g, d.Answering k g → LookedUp as g := by
  refine openMachine.run_history (I := fun as d => ∀ k g, d.Answering k g → LookedUp as g) ?_ ?_ hr
  · intro k g held
    simp [Answering, openMachine, new, Responces.new, Egress.new] at held
  · intro as d a e (before : openMachine.run new as = some d) h step k g held
    rcases answering_of_step step held with old | ⟨rfl, f, rest, read, out, op, rfl⟩
    · exact (h k g old).snoc a
    · -- the read has come to the output that it names, with the cell it names
      have first : f ∈ (d.switch.outFifo k).contents :=
        (Fifo.contents_of_nbRead read).1 ▸ List.mem_cons_self ..
      obtain ⟨⟨-, word⟩, routed⟩ := (placed_of_reachable ⟨as, before⟩).outFifo k f first
      obtain rfl : portOf (dest f.origin.word) = k := by rw [← routed, word, Origin.dest_sent]
      have offset : addrOffset f.origin.word = addrOffset f.word := by
        rw [word, Origin.addrOffset_sent]
      refine ⟨as, [], d, e, f, rfl, before, step, ?_, rfl, ?_⟩
      · rw [out, Fifo.readOff_of_nbRead read]
      · simp [EgressStep.answer, offset]

/-! ### What is published -/

/-- A value that `entry_response` takes from a response FIFO answers a read that its port has
let pass and sent on. It carries the data of the cell that the read names, as the cell was when
`interface_out` looked, it is published at that port with bit 31 cleared, and at no other. -/
theorem answer_stays_with_port {d e : Device} {as : List (Action ⊕ (Port × Word))}
    (hr : openMachine.run new as = some d)
    (hs : openMachine.step d (.inl (.run .entryResponse)) = some e) {n : Port} {f : Flit}
    (taken : (d.responces.responceFifo n).readOff (e.responces.responceFifo n) = [f]) :
    Recorded d f.origin ∧ opcode f.origin.word = 1 ∧ LookedUp as f ∧
      (e.responces.responceS f.origin.port).next = Responces.clearPending f.word ∧
      (e.responces.inResponce f.origin.port).next = Responces.clearPending f.word ∧
      data (Responces.clearPending f.word) = data f.word ∧
      pending (Responces.clearPending f.word) = false ∧
      ∀ j, j ≠ f.origin.port → e.responces.responceS j = d.responces.responceS j ∧
        e.responces.inResponce j = d.responces.inResponce j := by
  have moved : e.responces = d.responces.run.1 := by
    have closed : machine.step d (.run .entryResponse) = some e := hs
    cases move_of_step closed with
    | run q runnable => rfl
  have spec := d.responces.run_spec
  rw [moved] at taken ⊢
  generalize d.responces.run = t at spec taken ⊢
  cases spec with
  | reset | rest => simp [Responces.reset] at taken
  | marker m v rest read => simp [Responces.publishInit, Responces.publish] at taken
  | answer m g rest none read =>
    have contents := (Fifo.contents_of_nbRead read).1
    obtain rfl : n = m := by
      by_contra other
      simp [Responces.publishAnswer, Responces.publish, other] at taken
    obtain rfl : g = f := by
      simpa [Responces.publishAnswer, Responces.publish, Fifo.readOff_of_nbRead read] using taken
    have member : g ∈ (d.responces.responceFifo n).contents :=
      contents ▸ List.mem_cons_self ..
    obtain ⟨record, destination, op⟩ := (placed_of_reachable ⟨as, hr⟩).responceFifo n g member
    have port : portOf (dest (Responces.clearPending g.word)) = g.origin.port := by
      rw [dest_clearPending, destination, portOf_portBits]
    refine ⟨record, op, lookedUp_of_run hr n g (Or.inl member), ?_, ?_, data_clearPending _,
      pending_clearPending _, fun j other => ?_⟩
    · simp [Responces.publishAnswer, Responces.publish, port]
    · simp [Responces.publishAnswer, Responces.publish, port]
    · simp [Responces.publishAnswer, Responces.publish, port, other]

/-- Port 1 reads the cell of offset 5 in BRAM 2; its client has put another port's number into
the source field. -/
def strayRead : Word := pack 5 1 3 2 0

/-- The read is answered in the last step. -/
def asking : List (Action ⊕ (Port × Word)) :=
  (cycle [] ++ cycle []).map .inl ++ .inl .edge :: .inr (1, strayRead) ::
    (clocked.map fun p => .inl (.run p)) ++ [.inl .delta] ++
    ((cycle [] ++ cycle [] ++ cycle [] ++ cycle []).map .inl ++ .inl .edge ::
      ((clocked.takeWhile (· ≠ .entryResponse)).map fun p => .inl (.run p)))

/-- Its answer: the cell still holds its own index. -/
def strayAnswer : Flit := ⟨pack 5 2 2 1 5, ⟨1, 0, strayRead, ⟨0, 0, 0⟩⟩⟩

theorem answer_stays_with_port_of_asking : ∃ d e, openMachine.run new asking = some d ∧
    openMachine.step d (.inl (.run .entryResponse)) = some e ∧
    (e.responces.responceS 1).next = pack 5 2 2 1 5 ∧
    ∀ j, j ≠ 1 → e.responces.responceS j = d.responces.responceS j ∧
      e.responces.inResponce j = d.responces.inResponce j := by
  have answered : ((openMachine.run new asking).bind fun d =>
      (openMachine.step d (.inl (.run .entryResponse))).map fun e =>
        (d.responces.responceFifo 2).readOff (e.responces.responceFifo 2)) =
      some [strayAnswer] := by decide +kernel
  obtain ⟨d, run, found⟩ := Option.bind_eq_some_iff.mp answered
  obtain ⟨e, step, taken⟩ := Option.map_eq_some_iff.mp found
  obtain ⟨-, -, -, published, -, -, -, others⟩ := answer_stays_with_port run step taken
  exact ⟨d, e, run, step, published.trans (by decide), others⟩

end Device

end ScCosim.Firewall
