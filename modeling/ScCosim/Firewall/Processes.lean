import ScCosim.Firewall.Network

/-!
# What one run of the other clocked processes can do

As in the module on `interface_in`, each process has its branches listed once, and what is
shown of the processes later is read off these lists.
-/
namespace ScCosim.Firewall

open Kernel

/-! ### A switch -/

namespace SwitchStep

/-- A switch moves at most one packet. -/
inductive Run (s : SwitchStep) : SwitchStep → Prop
  | rest (pc : SwitchPc) : Run s { s with pc := pc }
  | first (f : Flit) (rest : Fifo Flit) (pc : SwitchPc) (read : s.in0.nbRead = some (f, rest)) :
      Run s { { s with in0 := rest }.pass f with pc := pc }
  | second (f : Flit) (rest : Fifo Flit) (pc : SwitchPc) (read : s.in1.nbRead = some (f, rest)) :
      Run s { { s with in1 := rest }.pass f with pc := pc }

theorem run_spec (s : SwitchStep) : Run s s.run := by
  have second : Run s s.second := by
    unfold second
    cases read : s.in1.nbRead with
    | none => exact .rest _
    | some r => exact .second r.1 r.2 _ read
  unfold run
  split
  · exact .rest _
  · exact .rest _
  · -- the first input if it holds a packet, else the second
    cases read : s.in0.nbRead with
    | none => exact second
    | some r => exact .first r.1 r.2 _ read
  · exact second

/-- The packet as a switch passes it on. -/
def moved (f : Flit) : Flit := { f with word := rotateDest f.word }

/-- A packet passed on is in one of the outputs, or lost. -/
theorem pass_spec (s : SwitchStep) (f : Flit) :
    (s.pass f).in0 = s.in0 ∧ (s.pass f).in1 = s.in1 ∧
      if nextPosition f.word then
        (s.pass f).out0 = s.out0 ∧ (s.pass f).out1 = s.out1.nbWrite (moved f)
      else (s.pass f).out0 = s.out0.nbWrite (moved f) ∧ (s.pass f).out1 = s.out1 := by
  unfold pass
  split <;> exact ⟨rfl, rfl, rfl, rfl⟩

/-- A switch writes nothing into its inputs. -/
theorem run_written (s : SwitchStep) :
    s.run.in0.written = s.in0.written ∧ s.run.in1.written = s.in1.written := by
  have spec := s.run_spec
  generalize s.run = t at spec ⊢
  cases spec with
  | rest => exact ⟨rfl, rfl⟩
  | first f rest pc read =>
    obtain ⟨in0, in1, -⟩ := { s with in0 := rest }.pass_spec f
    exact ⟨by rw [in0, (Fifo.contents_of_nbRead read).2.2], by rw [in1]⟩
  | second f rest pc read =>
    obtain ⟨in0, in1, -⟩ := { s with in1 := rest }.pass_spec f
    exact ⟨by rw [in0], by rw [in1, (Fifo.contents_of_nbRead read).2.2]⟩

end SwitchStep

theorem Switch.writtenSince_firstStage (k : Fin 4) (a : Fin 2) (p q i : Port) (s : Switch) :
    (s.inFifo i).writtenSince ((s.firstStage k a p q).inFifo i) = [] := by
  obtain ⟨first, second⟩ := SwitchStep.run_written
    ⟨s.inFifo p, s.inFifo q, s.outFifoS a 0, s.outFifoS a 1, s.pc k⟩
  simp only [Switch.firstStage, Fifo.writtenSince]
  by_cases atQ : i = q
  · subst atQ
    simp [second]
  by_cases atP : i = p
  · subst atP
    simp [atQ, first]
  · simp [atQ, atP]

/-! ### `interface_out` -/

namespace EgressStep

variable {base : Word}

inductive Run (base : Word) (s : EgressStep) : EgressStep → Prop
  | start (pc : s.egress.pc = .start) :
      Run base s { s with egress := { s.egress with
        pc := .init, isWriteOp := false, handshake.preready := false } }
  | init (pc : s.egress.pc = .init) : Run base s { s with egress := { s.egress with pc := .loop } }
  | rest (pc : s.egress.pc = .loop) : Run base s s
  | read (f : Flit) (rest : Fifo Flit) (cell : Word) (pc : s.egress.pc = .loop)
      (free : s.egress.handshake.preready = false) (read : s.outFifo.nbRead = some (f, rest))
      (op : opcode f.word = 1)
      (value : cell = s.mem (base + (addrOffset f.word).zeroExtend 32 - base)) :
      Run base s ({ s with outFifo := rest, egress.isWriteOp := false }.writeResponce
        { f with word := answer f.word cell })
  | write (f : Flit) (rest : Fifo Flit) (pc : s.egress.pc = .loop)
      (free : s.egress.handshake.preready = false) (read : s.outFifo.nbRead = some (f, rest))
      (op : opcode f.word ≠ 1) : Run base s (EgressStep.write base { s with outFifo := rest } f)
  | lower (pc : s.egress.pc = .loop) (raised : s.egress.handshake.preready = true)
      (done : s.egress.handshake.done.cur = true) :
      Run base s { s with
        egress := { s.egress with handshake := s.egress.handshake.lower }
        notify := s.egress.isWriteOp }
  | resume (f : Flit) (pc : s.egress.pc = .writeResponce f) : Run base s (s.writeResponce f)

theorem run_spec (base : Word) (s : EgressStep) : Run base s (run base s) := by
  unfold run
  cases pc : s.egress.pc with
  | start => exact .start pc
  | init => exact .init pc
  | writeResponce f => exact .resume f pc
  | loop =>
    simp only
    split
    next free =>
      simp only [Bool.and_eq_true, Bool.not_eq_true'] at free
      -- the handshake is down: a packet is looked for
      cases read : s.outFifo.nbRead with
      | none => exact .rest pc
      | some r =>
        obtain ⟨f, rest⟩ := r
        simp only
        split
        next op => exact .read f rest _ pc free.2 read op rfl
        next op => exact .write f rest pc free.2 read op
    next =>
    split
    -- the handshake is up: only its end is looked for
    next ended =>
      simp only [Bool.and_eq_true] at ended
      exact .lower pc ended.2 ended.1
    next => exact .rest pc

/-- A response is in its FIFO, or the process is blocked with it. -/
theorem writeResponce_spec (s : EgressStep) (f : Flit) :
    (s.writeResponce f = { s with
      responceFifo := s.responceFifo.push f, egress := { s.egress with pc := .loop } }) ∨
      s.writeResponce f = { s with egress := { s.egress with pc := .writeResponce f } } := by
  unfold writeResponce
  split
  · exact Or.inl rfl
  · exact Or.inr rfl

end EgressStep

/-! ### `entry_response` -/

namespace Responces

/-- The process publishes at most one value, and notifies only for an answer. -/
inductive Run (r : Responces) : Responces × Bool → Prop
  | reset (pc : r.pc = .start) : Run r (r.reset, false)
  | rest (pc : ResponcePc) : Run r ({ r with pc := pc }, false)
  | marker (n : Port) (v : Word) (rest : Fifo Word)
      (read : (r.initResponceFifo n).nbRead = some (v, rest)) :
      Run r (r.publishInit n rest v, false)
  | answer (n : Port) (f : Flit) (rest : Fifo Flit)
      (none : (r.initResponceFifo n).nbRead = none)
      (read : (r.responceFifo n).nbRead = some (f, rest)) :
      Run r (r.publishAnswer n rest f, true)

theorem serve_spec (r : Responces) (ports : List Port) : Run r (r.serve ports) := by
  induction ports with
  | nil => exact .rest _
  | cons n ports ih =>
    unfold serve
    -- the blocks of the ports in turn, up to the first that finds something
    cases marker : (r.initResponceFifo n).nbRead with
    | some v => exact .marker n v.1 v.2 marker
    | none =>
      cases answer : (r.responceFifo n).nbRead with
      | some f => exact .answer n f.1 f.2 marker answer
      | none => exact ih

theorem run_spec (r : Responces) : Run r r.run := by
  unfold run
  cases pc : r.pc with
  | start => exact .reset pc
  | init => exact .rest _
  | loop => exact r.serve_spec _
  | served n => exact r.serve_spec _

end Responces

/-! ### An answer as it is published -/

theorem dest_clearPending (w : Word) : dest (Responces.clearPending w) = dest w := by
  unfold dest Responces.clearPending
  ext k hk
  obtain rfl | rfl : k = 0 ∨ k = 1 := by omega
  · simp
  · simp

theorem data_clearPending (w : Word) : data (Responces.clearPending w) = data w := by
  unfold data Responces.clearPending
  ext k hk
  have mask : (0x7FFFFFFF#32).getLsbD k = true := by
    have low : ∀ n : Fin 16, (0x7FFFFFFF#32).getLsbD n = true := by decide
    exact low ⟨k, hk⟩
  simp [mask]

@[simp] theorem pending_clearPending (w : Word) : pending (Responces.clearPending w) = false := by
  simp [pending, Responces.clearPending]

/-! ### `direct_mem_out` -/

namespace DirectStep

variable {base : Word}

inductive Run (base : Word) (s : DirectStep) : DirectStep → Prop
  | start (pc : s.direct.pc = .start) :
      Run base s { s with direct := { s.direct with pc := .init, handshake.preready := false } }
  | init (pc : s.direct.pc = .init) : Run base s { s with direct := { s.direct with pc := .loop } }
  | rest (pc : s.direct.pc = .loop) : Run base s s
  | access (v : Word) (rest : Fifo Word) (pc : s.direct.pc = .loop)
      (free : s.direct.handshake.preready = false)
      (read : s.direct.dirMemOutFifo.nbRead = some (v, rest)) :
      Run base s (DirectStep.access base { s with direct.dirMemOutFifo := rest } v)
  | lower (pc : s.direct.pc = .loop) (raised : s.direct.handshake.preready = true)
      (done : s.direct.handshake.done.cur = true) :
      Run base s { s with
        direct := { s.direct with handshake := s.direct.handshake.lower }
        notifyWrite := true }
  | resume (v : Word) (pc : s.direct.pc = .writeResponce v) : Run base s (s.writeResponce v)

theorem run_spec (base : Word) (s : DirectStep) : Run base s (run base s) := by
  unfold run
  cases pc : s.direct.pc with
  | start => exact .start pc
  | init => exact .init pc
  | writeResponce v => exact .resume v pc
  | loop =>
    simp only
    split
    next free =>
      simp only [Bool.and_eq_true, Bool.not_eq_true'] at free
      -- the handshake is down: a request is looked for
      cases read : s.direct.dirMemOutFifo.nbRead with
      | none => exact .rest pc
      | some r => exact .access r.1 r.2 pc free.2 read
    next =>
    split
    next ended =>
      simp only [Bool.and_eq_true] at ended
      exact .lower pc ended.2 ended.1
    next => exact .rest pc

/-- A response is in its FIFO and announced, or the process is blocked with it. -/
theorem writeResponce_spec (s : DirectStep) (v : Word) :
    (s.writeResponce v = { s with
      direct := { s.direct with
        dirMemResponceFifo := s.direct.dirMemResponceFifo.push v, pc := .loop }
      notifyRead := true }) ∨
      s.writeResponce v = { s with direct := { s.direct with pc := .writeResponce v } } := by
  unfold writeResponce
  split
  · exact Or.inl rfl
  · exact Or.inr rfl

end DirectStep

end ScCosim.Firewall
