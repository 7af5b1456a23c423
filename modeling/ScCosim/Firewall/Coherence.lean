import ScCosim.Firewall.Contents

/-!
# A coherent memory

While no rule is enabled, the memories hold what the calls that have returned have left there,
by whichever path, and a read over the switch brings back what its cell held when it was sent.
The invariant follows one call through the device: before a write takes effect the memories
hold the old contents, after it the new ones, and no process that ends the call does so between.
-/
namespace ScCosim.Firewall

open Kernel Async

namespace Device

variable {d e : Device}

/-! ### One call on its way -/

/-- What the calls that have returned have left. -/
def settled (d : Device) : Contents := .ofLog d.bus.returned

/-- What the running call is to leave. -/
def coming (d : Device) : Contents := d.settled.after d.bus.trans

/-- The write has not reached its memory, or it has. -/
inductive Stage (d : Device) : Prop
  | before (mem : d.mem = d.settled.cell) (egress : ∀ k, (d.egress k).handshake.preready = false)
      (direct : ∀ k, (d.direct k).handshake.preready = false)
  | after (mem : d.mem = d.coming.cell) (asked : d.coming.asked = d.settled.asked)

/-- The register of each port is right, and only a marker is about to be shown there. -/
structure Steady (d : Device) : Prop where
  shown : ∀ n, d.settled.Shows n (d.responces.inResponce n).cur
  fresh : ∀ n, (d.responces.inResponce n).next = (d.responces.inResponce n).cur ∨
    (d.responces.inResponce n).next = marker

/-- The answer of a read is in the device. -/
def Held (d : Device) (f : Flit) : Prop :=
  ∃ k, f ∈ (d.responces.responceFifo k).contents ∨ (d.egress k).pc = .writeResponce f

/-- A write is under way: an answer in the device is the one that the call has asked for. -/
structure Writing (d : Device) : Prop where
  stage : Stage d
  answers : ∀ f, d.Held f → d.coming.asked f.origin.port = some (data f.word)
  steady : Steady d

/-- The write is done. -/
structure Wrote (d : Device) : Prop where
  mem : d.mem = d.coming.cell
  next : ∀ n, d.coming.Shows n (d.responces.inResponce n).next

/-- While a write is under way: not yet acknowledged, or done. -/
def Proceeds (d : Device) : Prop :=
  d.bus.client = .waitWrite ∧ Writing d ∨ d.bus.client = .notified ∧ Wrote d

/-- What the log and the call depend on. -/
structure SameCall (d e : Device) : Prop where
  trans : e.bus.trans = d.bus.trans
  returned : e.bus.returned = d.bus.returned

namespace SameCall

theorem settled (h : SameCall d e) : e.settled = d.settled := by
  unfold Device.settled
  rw [h.returned]

theorem coming (h : SameCall d e) : e.coming = d.coming := by
  unfold Device.coming
  rw [h.settled, h.trans]

theorem of_clocked {q : Proc} (inside : q ∈ clocked) : SameCall d (d.process q) := by
  obtain ⟨notify, pending, bus⟩ := d.process_signal inside
  obtain ⟨c, r, frame, -⟩ := d.bus.signal_frame notify pending
  rw [frame] at bus
  exact ⟨by rw [bus], by rw [bus]⟩

end SameCall

/-! ### A process beside the write -/

/-- Nothing that a write under way depends on has changed. -/
structure Beside (d e : Device) : Prop extends SameCall d e where
  mem : e.mem = d.mem
  egress : ∀ k, (d.egress k).handshake.preready = false → (e.egress k).handshake.preready = false
  direct : ∀ k, (d.direct k).handshake.preready = false → (e.direct k).handshake.preready = false
  held : ∀ f, e.Held f → d.Held f
  inResponce : e.responces.inResponce = d.responces.inResponce

theorem Steady.congr (h : Steady d) (call : SameCall d e)
    (cur : ∀ n, (e.responces.inResponce n).cur = (d.responces.inResponce n).cur)
    (next : ∀ n, (e.responces.inResponce n).next = (d.responces.inResponce n).next ∨
      (e.responces.inResponce n).next = marker) : Steady e := by
  refine ⟨fun n => ?_, fun n => ?_⟩
  · rw [call.settled, cur]
    exact h.shown n
  · rcases next n with same | marked
    · rw [same, cur]
      exact h.fresh n
    · exact Or.inr marked

theorem Stage.congr (h : Stage d) (call : SameCall d e) (mem : e.mem = d.mem)
    (egress : ∀ k, (d.egress k).handshake.preready = false →
      (e.egress k).handshake.preready = false)
    (direct : ∀ k, (d.direct k).handshake.preready = false →
      (e.direct k).handshake.preready = false) : Stage e := by
  cases h with
  | before old low lowDirect =>
    exact .before (by rw [mem, call.settled, old]) (fun k => egress k (low k))
      fun k => direct k (lowDirect k)
  | after new asked => exact .after (by rw [mem, call.coming, new]) (by rw [call.coming, call.settled, asked])

/-- A call that writes no cell finds the memories as it leaves them. -/
theorem Stage.mem_coming (h : Stage d) (same : d.coming.cell = d.settled.cell) :
    d.mem = d.coming.cell := by
  cases h with
  | before old => rw [old, same]
  | after new => exact new

theorem Writing.beside (h : Writing d) (beside : Beside d e) : Writing e := by
  have call := beside.toSameCall
  constructor
  case stage => exact h.stage.congr call beside.mem beside.egress beside.direct
  case answers =>
    intro f held
    rw [call.coming]
    exact h.answers f (beside.held f held)
  case steady =>
    refine h.steady.congr call ?_ ?_
    all_goals simp [beside.inResponce]

/-- What is about to be shown is right after any call that asks nothing of the port. -/
theorem Steady.next_shows (h : Steady d) {c : Contents} {n : Port}
    (same : c.asked n = d.settled.asked n) : c.Shows n (d.responces.inResponce n).next := by
  rcases h.fresh n with kept | marked
  · rw [kept]
    exact (h.shown n).congr same
  · rw [marked]
    exact Contents.shows_marker n

/-- A write whose word is in memory can end. -/
theorem Writing.wrote (h : Writing d) (mem : d.mem = d.coming.cell)
    (asked : d.coming.asked = d.settled.asked) : Wrote d :=
  ⟨mem, fun _ => h.steady.next_shows (by rw [asked])⟩

/-! ### Each process that a write comes by -/

/-- The packet of a read finds the cell as it was when the read was sent. -/
private theorem asked_of_flit (h : Stage d) {k : Port} {f : Flit}
    (sends : d.bus.trans.Sends f.origin.port f.origin.word) (word : f.word = f.origin.sent)
    (port : portOf (dest f.word) = k) (op : opcode f.word = 1) :
    d.coming.asked f.origin.port = some (data (d.mem k ((addrOffset f.word).zeroExtend 32))) := by
  have read : opcode f.origin.word = 1 := by simpa [word] using op
  obtain ⟨cell, asked⟩ := Contents.packet_of_read (c := d.settled) (i := f.origin.port) read
  have coming : d.coming = d.settled.packet f.origin.port f.origin.word :=
    Contents.after_of_sends sends
  have mem : d.mem = d.settled.cell := by
    rw [h.mem_coming (by rw [coming, cell]), coming, cell]
  rw [coming, asked, Function.update_self, mem, ← port, word]
  simp

/-- A word that is put where the call wants it. -/
private theorem stored_mem (h : Stage d) {k : Port} {index v : Word}
    (coming : d.coming = d.settled.store k index v) :
    Function.update d.mem k (Function.update (d.mem k) index (pack 0 0 0 0 (data v))) =
      d.coming.cell := by
  cases h with
  | before old => rw [old, coming, Contents.store]
  | after new =>
    rw [new, coming]
    exact congrArg Contents.cell (Contents.store_store index)

/-- What a step of the device means for the write, when it notifies as this process does. -/
private theorem proceeds_of_signal {q : Proc} (notify pending : Bool)
    (waits : d.bus.client = .waitWrite) (bus : (d.process q).bus = d.bus.signal notify pending)
    (writing : notify = false → Writing (d.process q)) (wrote : notify = true → Wrote (d.process q)) :
    Proceeds (d.process q) := by
  obtain ⟨r, signal⟩ := d.bus.signal_waits notify pending waits
  rw [signal] at bus
  cases notify with
  | false => exact Or.inl ⟨by simp [bus], writing rfl⟩
  | true => exact Or.inr ⟨by simp [bus], wrote rfl⟩

section egress

variable {k : Port} {s : EgressStep}

/-- `e` is `d` with what `interface_out_k` has left. -/
structure AfterEgress (k : Port) (s : EgressStep) (d e : Device) : Prop extends SameCall d e where
  egress : e.egress = Function.update d.egress k s.egress
  mem : e.mem = Function.update d.mem k s.mem
  fifo : e.responces.responceFifo = Function.update d.responces.responceFifo k s.responceFifo
  direct : e.direct = d.direct
  inResponce : e.responces.inResponce = d.responces.inResponce

private theorem AfterEgress.held (h : AfterEgress k s d e) {f : Flit} (held : e.Held f) :
    (f ∈ s.responceFifo.contents ∨ s.egress.pc = .writeResponce f) ∨ d.Held f := by
  obtain ⟨j, held⟩ := held
  rw [h.fifo, h.egress] at held
  by_cases own : j = k
  · subst own
    simp only [Function.update_self] at held
    exact Or.inl held
  · simp only [Function.update_of_ne own] at held
    exact Or.inr ⟨j, held⟩

private theorem AfterEgress.low (h : AfterEgress k s d e)
    (low : (d.egress k).handshake.preready = false → s.egress.handshake.preready = false)
    (j : Port) (was : (d.egress j).handshake.preready = false) :
    (e.egress j).handshake.preready = false := by
  rw [h.egress]
  by_cases own : j = k
  · subst own
    rw [Function.update_self]
    exact low was
  · rw [Function.update_of_ne own]
    exact was

private theorem AfterEgress.writing (h : AfterEgress k s d e) (writing : Writing d)
    (mem : s.mem = d.mem k)
    (low : (d.egress k).handshake.preready = false → s.egress.handshake.preready = false)
    (answers : ∀ f, f ∈ s.responceFifo.contents ∨ s.egress.pc = .writeResponce f →
      d.coming.asked f.origin.port = some (data f.word)) : Writing e := by
  constructor
  case stage =>
    refine writing.stage.congr h.toSameCall ?_ (h.low low) fun j was => ?_
    · rw [h.mem, mem, Function.update_eq_self]
    · rw [h.direct, was]
  case answers =>
    intro f held
    rw [h.toSameCall.coming]
    rcases h.held held with new | old
    · exact answers f new
    · exact writing.answers f old
  case steady =>
    refine writing.steady.congr h.toSameCall ?_ ?_
    all_goals simp [h.inResponce]

/-- An answer goes to the FIFO, or the process waits with it for a place there. -/
private theorem AfterEgress.respond {f : Flit} (h : AfterEgress k (s.writeResponce f) d e)
    (writing : Writing d) (mem : s.mem = d.mem k)
    (fifo : s.responceFifo = d.responces.responceFifo k)
    (handshake : s.egress.handshake = (d.egress k).handshake)
    (answer : d.coming.asked f.origin.port = some (data f.word)) : Writing e := by
  have low (was : (d.egress k).handshake.preready = false) :
      s.egress.handshake.preready = false := by rw [handshake, was]
  rcases s.writeResponce_spec f with room | full
  · rw [room] at h
    refine h.writing writing mem low fun g held => ?_
    rcases held with member | at_
    · simp only [Fifo.push_contents, fifo, List.mem_append, List.mem_singleton] at member
      rcases member with was | rfl
      · exact writing.answers g ⟨k, Or.inl was⟩
      · exact answer
    · cases at_
  · rw [full] at h
    refine h.writing writing mem low fun g held => ?_
    rcases held with member | at_
    · rw [fifo] at member
      exact writing.answers g ⟨k, Or.inl member⟩
    · cases at_
      exact answer

/-- A packet that leaves the switch at port `k` is the call's, and is meant for memory `k`. -/
private theorem flit_of_outFifo (reach : machine.Reachable d) {f : Flit} {rest : Fifo Flit}
    (read : (d.switch.outFifo k).nbRead = some (f, rest)) :
    d.bus.trans.Sends f.origin.port f.origin.word ∧ f.word = f.origin.sent ∧
      portOf (dest f.word) = k := by
  have front := (Fifo.contents_of_nbRead read).1
  have member : f ∈ (d.switch.outFifo k).contents := front ▸ List.mem_cons_self ..
  obtain ⟨sent, port⟩ := (placed_of_reachable (open_of_reachable reach)).outFifo k f member
  have sends := (owned_of_reachable reach).flits (.outFifo k) f (List.mem_append.mp member)
  exact ⟨sends, sent.2, port⟩

private theorem notify_writeResponce (f : Flit) : (s.writeResponce f).notify = s.notify := by
  unfold EgressStep.writeResponce
  split <;> rfl

/-- A run of `interface_out_k` passes the answer of a read on, puts a word where the call wants
it, or sees the receiver's answer to such a word. -/
private theorem writing_of_egress (reach : machine.Reachable d) (writing : Writing d)
    (spec : EgressStep.Run (memBase k)
      ⟨d.egress k, d.switch.outFifo k, d.responces.responceFifo k, d.mem k, false⟩ s)
    (h : AfterEgress k s d e) : Writing e ∧ (s.notify = true → Wrote e) := by
  have old : ∀ f, f ∈ (d.responces.responceFifo k).contents ∨ (d.egress k).pc = .writeResponce f →
      d.coming.asked f.origin.port = some (data f.word) := fun f held => writing.answers f ⟨k, held⟩
  have offset (x : Word) : memBase k + x - memBase k = x := by
    rw [BitVec.add_comm, BitVec.add_sub_cancel]
  cases spec with
  | start pc | init pc =>
    refine ⟨h.writing writing rfl (by simp) fun f held => ?_, by simp⟩
    exact old f (held.imp_right (by simp))
  | rest pc => exact ⟨h.writing writing rfl id old, by simp⟩
  | resume f pc =>
    exact ⟨h.respond writing rfl rfl rfl (old f (Or.inr pc)), by simp [notify_writeResponce]⟩
  | read f rest cell pc free read op value =>
    obtain ⟨sends, word, port⟩ := flit_of_outFifo reach read
    have cell : cell = d.mem k ((addrOffset f.word).zeroExtend 32) := by simpa [offset] using value
    have asked := asked_of_flit writing.stage sends word port op
    refine ⟨h.respond writing rfl rfl rfl ?_, by simp [notify_writeResponce]⟩
    simpa [EgressStep.answer, cell] using asked
  | write f rest pc free read op =>
    obtain ⟨sends, word, port⟩ := flit_of_outFifo reach read
    have other : opcode f.origin.word ≠ 1 := by simpa [word] using op
    have plain : f.word = f.origin.word := word.trans (if_neg other)
    have coming : d.coming = d.settled.store k ((addrOffset f.word).zeroExtend 32) f.word := by
      rw [← port, plain, ← Contents.packet_of_write (i := f.origin.port) other]
      exact Contents.after_of_sends sends
    have mem : e.mem = e.coming.cell := by
      rw [h.toSameCall.coming, ← stored_mem writing.stage coming, h.mem]
      simp [EgressStep.write, offset]
    refine ⟨⟨.after mem ?_, fun g held => ?_, ?_⟩, by simp [EgressStep.write]⟩
    · rw [h.toSameCall.coming, h.toSameCall.settled, coming, Contents.store_asked]
    · rw [h.toSameCall.coming]
      rcases h.held held with new | was
      · exact old g (new.imp_right (by simp [EgressStep.write]))
      · exact writing.answers g was
    · refine writing.steady.congr h.toSameCall ?_ ?_
      all_goals simp [h.inResponce]
  | lower pc raised done =>
    have after : Writing e := h.writing writing rfl (by simp [Handshake.lower]) old
    refine ⟨after, fun _ => ?_⟩
    -- a handshake that is up belongs to a word in memory
    cases writing.stage with
    | before mem low => simp [low k] at raised
    | after mem asked =>
      refine after.wrote ?_ ?_
      · rw [h.mem, h.toSameCall.coming]
        exact (Function.update_eq_self k d.mem).trans mem
      · rw [h.toSameCall.coming, h.toSameCall.settled, asked]

end egress

theorem proceeds_interfaceOut (reach : machine.Reachable d) (waits : d.bus.client = .waitWrite)
    (h : Writing d) (k : Port) : Proceeds (d.process (.interfaceOut k)) := by
  have result : d.process (.interfaceOut k) = d.interfaceOut k (memBase k) := process_interfaceOut d k
  have inside : Proc.interfaceOut k ∈ clocked := by
    clear result
    revert k
    decide
  have after := writing_of_egress reach h (EgressStep.run_spec _ _)
    (e := d.process (.interfaceOut k)) (k := k) {
      toSameCall := .of_clocked inside
      egress := by rw [result]; rfl
      mem := by rw [result]; rfl
      fifo := by rw [result]; rfl
      direct := by rw [result]; rfl
      inResponce := by rw [result]; rfl }
  refine proceeds_of_signal _ false waits ?_ (fun _ => after.1) after.2
  rw [result]
  rfl

section direct

variable {k : Port} {s : DirectStep}

/-- `e` is `d` with what `direct_mem_out_k` has left. -/
structure AfterDirect (k : Port) (s : DirectStep) (d e : Device) : Prop extends SameCall d e where
  direct : e.direct = Function.update d.direct k s.direct
  mem : e.mem = Function.update d.mem k s.mem
  egress : e.egress = d.egress
  responces : e.responces = d.responces

private theorem AfterDirect.answers (h : AfterDirect k s d e) (writing : Writing d) {f : Flit}
    (held : e.Held f) : e.coming.asked f.origin.port = some (data f.word) := by
  unfold Held at held
  rw [h.egress, h.responces] at held
  rw [h.toSameCall.coming]
  exact writing.answers f held

private theorem AfterDirect.steady (h : AfterDirect k s d e) (writing : Writing d) : Steady e := by
  refine writing.steady.congr h.toSameCall ?_ ?_
  all_goals simp [h.responces]

private theorem AfterDirect.writing (h : AfterDirect k s d e) (writing : Writing d)
    (mem : s.mem = d.mem k)
    (low : (d.direct k).handshake.preready = false → s.direct.handshake.preready = false) :
    Writing e := by
  refine ⟨?_, fun f => h.answers writing, h.steady writing⟩
  refine writing.stage.congr h.toSameCall ?_ (fun j => ?_) fun j was => ?_
  · rw [h.mem, mem, Function.update_eq_self]
  · rw [h.egress]
    exact id
  · rw [h.direct]
    by_cases own : j = k
    · subst own
      rw [Function.update_self]
      exact low was
    · rw [Function.update_of_ne own]
      exact was

/-- The answer of a direct read is nothing to a write. -/
private theorem AfterDirect.respond {v : Word} (h : AfterDirect k (s.writeResponce v) d e)
    (writing : Writing d) (mem : s.mem = d.mem k)
    (handshake : s.direct.handshake = (d.direct k).handshake) (quiet : s.notifyWrite = false) :
    Writing e ∧ ((s.writeResponce v).notifyWrite = true → Wrote e) := by
  have low (was : (d.direct k).handshake.preready = false) :
      s.direct.handshake.preready = false := by rw [handshake, was]
  rcases s.writeResponce_spec v with room | full
  · rw [room] at h ⊢
    exact ⟨h.writing writing mem low, by simp [quiet]⟩
  · rw [full] at h ⊢
    exact ⟨h.writing writing mem low, by simp [quiet]⟩

/-- A run of `direct_mem_out_k` puts the word of a request where the call wants it, or sees the
receiver's answer to such a word. -/
private theorem writing_of_direct (reach : machine.Reachable d) (writing : Writing d)
    (spec : DirectStep.Run (memBase k) ⟨d.direct k, d.mem k, false, false⟩ s)
    (h : AfterDirect k s d e) : Writing e ∧ (s.notifyWrite = true → Wrote e) := by
  cases spec with
  | start | init | rest => exact ⟨h.writing writing rfl (by simp), by simp⟩
  | resume v pc => exact h.respond writing rfl rfl rfl
  | access v rest pc free read =>
    revert h
    cases out : (d.direct k).outRead with
    | true =>
      simp only [DirectStep.access, out, if_true]
      intro h
      exact h.respond writing rfl rfl rfl
    | false =>
      -- the request of a write is the call's, and so is its address
      have front := (Fifo.contents_of_nbRead read).1
      have reaches := (owned_of_reachable reach).requests k out v (front ▸ List.mem_cons_self ..)
      have coming : d.coming = d.settled.store k ((d.direct k).outAddress - memBase k) v :=
        Contents.after_of_reaches reaches
      simp only [DirectStep.access, out, Bool.false_eq_true, if_false]
      intro h
      have mem : e.mem = e.coming.cell := by
        rw [h.toSameCall.coming, ← stored_mem writing.stage coming, h.mem]
      refine ⟨⟨.after mem ?_, fun f => h.answers writing, h.steady writing⟩, by simp⟩
      rw [h.toSameCall.coming, h.toSameCall.settled, coming, Contents.store_asked]
  | lower pc raised done =>
    have after : Writing e := h.writing writing rfl (by simp [Handshake.lower])
    refine ⟨after, fun _ => ?_⟩
    cases writing.stage with
    | before mem low lowDirect => simp [lowDirect k] at raised
    | after mem asked =>
      refine after.wrote ?_ ?_
      · rw [h.mem, h.toSameCall.coming]
        exact (Function.update_eq_self k d.mem).trans mem
      · rw [h.toSameCall.coming, h.toSameCall.settled, asked]

end direct

theorem proceeds_directMemOut (reach : machine.Reachable d) (waits : d.bus.client = .waitWrite)
    (h : Writing d) (k : Port) : Proceeds (d.process (.directMemOut k)) := by
  have inside : Proc.directMemOut k ∈ clocked := by
    revert k
    decide
  have result : d.process (.directMemOut k) = d.directMemOut k (memBase k) := process_directMemOut d k
  have after := writing_of_direct reach h (DirectStep.run_spec _ _)
    (e := d.process (.directMemOut k)) (k := k) {
      toSameCall := .of_clocked inside
      direct := by rw [result]; rfl
      mem := by rw [result]; rfl
      egress := by rw [result]; rfl
      responces := by rw [result]; rfl }
  refine proceeds_of_signal _ (DirectStep.run (memBase k)
    ⟨d.direct k, d.mem k, false, false⟩).notifyRead waits ?_ (fun _ => after.1) after.2
  rw [result]
  rfl

/-- `interface_in_i` ends a write only for a read that it drops while an answer is outstanding:
the register shows the marker. -/
theorem proceeds_interfaceIn (reach : machine.Reachable d) (off : d.RulesOff) (marked : Marked d)
    (waits : d.bus.client = .waitWrite) (h : Writing d) (i : Port) :
    Proceeds (d.process (.interfaceIn i)) := by
  have inside : Proc.interfaceIn i ∈ clocked := by
    revert i
    decide
  have result : d.process (.interfaceIn i) = d.interfaceIn i (portBits i) := process_interfaceIn d i
  have call : SameCall d (d.process (.interfaceIn i)) := .of_clocked inside
  have beside : Beside d (d.process (.interfaceIn i)) := by
    refine ⟨call, ?_, fun k => ?_, fun k => ?_, fun f held => ?_, ?_⟩
    all_goals rw [result] at *
    · rfl
    · exact id
    · exact id
    · exact held
    · rfl
  have after := h.beside beside
  let start : IngressStep :=
    ⟨d.ingress i, d.switch.inFifo i, d.responces.initResponceFifo i, false⟩
  obtain ⟨-, -, ends⟩ := IngressStep.run_missed i (portBits i) (d.setup i).fwRange
    (d.responces.responceS i).cur start
    (miss_of_rulesOff (open_of_reachable reach) off i) rfl (marked.pc i)
  refine proceeds_of_signal _ false waits (by rw [result]; rfl) (fun _ => after) fun notify => ?_
  obtain ⟨w, rest, read, outstanding | full⟩ := ends notify
  swap
  · have word : 0 < (d.ingress i).in_.held := by
      rw [Fifo.held_of_nbRead read]
      exact Nat.succ_pos _
    exact absurd full (room_of_word reach word)
  have front := (Fifo.contents_of_nbRead read).1
  have sends := (owned_of_reachable reach).words i w (front ▸ List.mem_cons_self ..)
  obtain ⟨cell, asked⟩ := Contents.packet_of_read (c := d.settled) (i := i) outstanding.1
  have coming : d.coming = d.settled.packet i w := Contents.after_of_sends sends
  constructor
  · rw [beside.mem, call.coming]
    exact h.stage.mem_coming (by rw [coming, cell])
  · intro n
    rw [call.coming, beside.inResponce]
    by_cases own : n = i
    · subst own
      have cur := marked.cur n outstanding.2
      have next : (d.responces.inResponce n).next = marker := by
        rcases h.steady.fresh n with kept | new
        · exact kept.trans cur
        · exact new
      rw [next]
      exact Contents.shows_marker n
    · refine h.steady.next_shows ?_
      rw [coming, asked, Function.update_of_ne own]

/-- `entry_response` publishes markers without a word to the bus; it ends a write with an
answer. -/
private theorem entryResponse_spec (marked : Marked d) :
    (d.responces.run.2 = false ∧ d.responces.run.1.responceFifo = d.responces.responceFifo ∧
      ∀ n, (d.responces.run.1.inResponce n).next = (d.responces.inResponce n).next ∨
        (d.responces.run.1.inResponce n).next = marker) ∨
    (d.responces.run.2 = true ∧ ∃ k, ∃ f ∈ (d.responces.responceFifo k).contents, ∀ n,
      (d.responces.run.1.inResponce n).next =
        if n = portOf (dest f.word) then Responces.clearPending f.word
        else (d.responces.inResponce n).next) := by
  have spec := d.responces.run_spec
  generalize d.responces.run = t at spec ⊢
  cases spec with
  | reset | rest => exact Or.inl ⟨rfl, rfl, fun _ => Or.inl rfl⟩
  | marker k v rest read =>
    have front := (Fifo.contents_of_nbRead read).1
    obtain rfl := marked.markers k v (front ▸ List.mem_cons_self ..)
    refine Or.inl ⟨rfl, rfl, fun n => ?_⟩
    by_cases own : n = k
    · subst own
      right
      simp [Responces.publishInit, Responces.publish]
    · left
      simp [Responces.publishInit, Responces.publish, own]
  | answer k f rest none read =>
    have front := (Fifo.contents_of_nbRead read).1
    refine Or.inr ⟨rfl, k, f, front ▸ List.mem_cons_self .., fun n => ?_⟩
    split
    next own =>
      subst own
      simp [Responces.publishAnswer, Responces.publish, dest_clearPending]
    next other =>
      simp [Responces.publishAnswer, Responces.publish, dest_clearPending, other]

theorem proceeds_entryResponse (reach : machine.Reachable d) (marked : Marked d)
    (waits : d.bus.client = .waitWrite) (h : Writing d) : Proceeds (d.process .entryResponse) := by
  have call : SameCall d (d.process .entryResponse) := .of_clocked (by decide)
  have cur (n : Port) : ((d.process .entryResponse).responces.inResponce n).cur =
      (d.responces.inResponce n).cur := d.responces.run_shown n
  rcases entryResponse_spec marked with ⟨quiet, fifo, next⟩ | ⟨loud, k, f, member, next⟩
  · refine proceeds_of_signal _ false waits rfl (fun _ => ?_) fun loud =>
      absurd (quiet.symm.trans loud) (by decide)
    refine ⟨h.stage.congr call rfl (fun _ => id) (fun _ => id), fun f held => ?_,
      h.steady.congr call cur next⟩
    rw [call.coming]
    refine h.answers f ?_
    obtain ⟨k, held⟩ := held
    refine ⟨k, held.imp_left fun member => ?_⟩
    rw [← fifo]
    exact member
  · refine proceeds_of_signal _ false waits rfl (fun quiet =>
      absurd (loud.symm.trans quiet) (by decide)) fun _ => ?_
    -- the answer goes to the port that the running call has asked from
    obtain ⟨-, dest, op⟩ :=
      (placed_of_reachable (open_of_reachable reach)).responceFifo k f member
    have sends := (owned_of_reachable reach).flits (.responceFifo k) f (List.mem_append.mp member)
    obtain ⟨cell, asked⟩ := Contents.packet_of_read (c := d.settled) (i := f.origin.port) op
    have coming : d.coming = d.settled.packet f.origin.port f.origin.word :=
      Contents.after_of_sends sends
    rw [dest, portOf_portBits] at next
    constructor
    · rw [call.coming]
      exact h.stage.mem_coming (by rw [coming, cell])
    · intro n
      rw [call.coming]
      have shown : ((d.process .entryResponse).responces.inResponce n).next = _ := next n
      rw [shown]
      split
      next own =>
        subst own
        right
        intro x was
        rw [h.answers f ⟨k, Or.inl member⟩, Option.some.injEq] at was
        rw [data_clearPending, was]
      next other =>
        refine h.steady.next_shows ?_
        rw [coming, asked, Function.update_of_ne other]

theorem proceeds_clocked (reach : machine.Reachable d) (off : d.RulesOff)
    (waits : d.bus.client = .waitWrite) (h : Writing d) {q : Proc} (inside : q ∈ clocked) :
    Proceeds (d.process q) := by
  have marked := marked_of_reachable reach off
  have call : SameCall d (d.process q) := .of_clocked inside
  cases q with
  | client | executeWriteThread | executeReadThread => simp [clocked] at inside
  | interfaceOut k => exact proceeds_interfaceOut reach waits h k
  | directMemOut k => exact proceeds_directMemOut reach waits h k
  | interfaceIn i => exact proceeds_interfaceIn reach off marked waits h i
  | entryResponse => exact proceeds_entryResponse reach marked waits h
  -- the others are beside the write
  | entrySw k =>
    refine Or.inl ⟨?_, h.beside ⟨call, ?_, ?_, ?_, ?_, ?_⟩⟩
    all_goals rw [process_entrySw]
    · exact waits
    · exact fun _ => id
    · exact fun _ => id
    · exact fun _ => id
  | setupfwRule =>
    have same : ∃ setup pc, d.process .setupfwRule = { d with setup := setup, setupPc := pc } := by
      simp only [process, setupfwRule]
      split <;> exact ⟨_, _, rfl⟩
    obtain ⟨setup, pc, same⟩ := same
    rw [same] at call ⊢
    exact Or.inl ⟨waits, h.beside ⟨call, rfl, fun _ => id, fun _ => id, fun _ => id, rfl⟩⟩
  | entry k =>
    have egress (j : Port) : ((d.entry k).egress j).pc = (d.egress j).pc ∧
        ((d.entry k).egress j).handshake.preready = (d.egress j).handshake.preready := by
      by_cases own : j = k
      · subst own
        simp [entry, receive_preready]
      · simp [entry, own]
    refine Or.inl ⟨waits, h.beside ⟨call, rfl, fun j low => (egress j).2.trans low, fun _ => id, ?_, rfl⟩⟩
    rintro f ⟨j, held⟩
    exact ⟨j, held.imp_right fun at_ => (egress j).1 ▸ at_⟩
  | directentry k =>
    have direct (j : Port) : ((d.directentry k).direct j).handshake.preready =
        (d.direct j).handshake.preready := by
      by_cases own : j = k
      · subst own
        simp [directentry, receive_preready]
      · simp [directentry, own]
    exact Or.inl ⟨waits, h.beside
      ⟨call, rfl, fun _ => id, fun j low => (direct j).trans low, fun _ => id, rfl⟩⟩

/-! ### The write thread -/

/-- The write thread itself ends a write only to a register of a rule. -/
private theorem unchanged_of_ended (owned : Owned d) (waits : d.bus.client = .waitWrite)
    (ended : d.executeWriteThread.bus.client = .notified) : d.coming = d.settled := by
  revert ended
  have writeIn (d : Device) (i : Port) (v : Word) (waits : d.bus.client = .waitWrite) :
      (d.writeIn i v).bus.client ≠ .notified := by
    unfold Device.writeIn
    split <;> simp [waits]
  have writeDirect (d : Device) (k : Port) (v : Word) (waits : d.bus.client = .waitWrite) :
      (d.writeDirect k v).bus.client ≠ .notified := by
    unfold Device.writeDirect
    split <;> simp [waits]
  unfold executeWriteThread
  cases at_ : d.bus.writeThread with
  | wait => simp [waits]
  | writeIn i v => exact fun ended => absurd ended (writeIn d i v waits)
  | writeDirect k v => exact fun ended => absurd ended (writeDirect d k v waits)
  | notified =>
    obtain ⟨command, address, -⟩ := owned.asked at_
    simp only [decodeWrite]
    split
    next k window => exact fun ended => absurd ended (writeDirect _ k _ waits)
    next above =>
      rw [address] at above
      split
      next i target => exact fun ended => absurd ended (writeIn _ i _ waits)
      all_goals
        next target =>
          intro _
          rw [address] at target
          simp [coming, Contents.after, command, above, target]

theorem proceeds_executeWriteThread (reach : machine.Reachable d)
    (waits : d.bus.client = .waitWrite) (h : Writing d) : Proceeds (d.process .executeWriteThread) := by
  have direct (k : Port) := (d.executeWriteThread_direct k).handshake
  have ended := unchanged_of_ended (owned_of_reachable reach) waits
  rw [process]
  obtain ⟨client, thread, served, setup, ingress, port, same, woken⟩ := d.executeWriteThread_frame
  rw [same] at direct ended ⊢
  have after : Writing { d with
      bus := { d.bus with client := client, writeThread := thread, served := served }
      setup := setup
      ingress := ingress
      direct := port } :=
    h.beside ⟨⟨rfl, rfl⟩, rfl, fun _ => id,
      fun k low => (congrArg Handshake.preready (direct k)).trans low, fun _ => id, rfl⟩
  rcases woken with rfl | rfl
  · exact Or.inl ⟨waits, after⟩
  · have unchanged := ended rfl
    refine Or.inr ⟨rfl, after.wrote ?_ (congrArg Contents.asked unchanged)⟩
    exact after.stage.mem_coming (congrArg Contents.cell unchanged)

/-! ### Every state of a run -/

/-- The memories and the registers follow the calls. -/
inductive Coherent (d : Device) : Prop
  | idle (client : d.bus.client = .idle) (mem : d.mem = d.settled.cell) (steady : Steady d)
  | back (client : d.bus.client = .delay) (mem : d.mem = d.settled.cell)
      (next : ∀ n, d.settled.Shows n (d.responces.inResponce n).next)
  | thrown (client : d.bus.client = .thrown)
  | reading (client : d.bus.client = .waitRead ∨ d.bus.client = .notified)
      (command : d.bus.trans.command = .read) (mem : d.mem = d.settled.cell) (steady : Steady d)
      (v : Word) (fetching : Fetching d.bus.trans d.bus.returned v d)
      (answers : d.settled.Answers (d.bus.trans.answered v))
  | writing (command : d.bus.trans.command = .write) (proceeds : Proceeds d)

theorem Coherent.of_idle (h : Coherent d) (idle : d.bus.client = .idle) :
    d.mem = d.settled.cell ∧ Steady d := by
  cases h with
  | idle _ mem steady => exact ⟨mem, steady⟩
  | back client | thrown client => simp [idle] at client
  | reading client => rcases client with client | client <;> simp [idle] at client
  | writing _ proceeds => rcases proceeds with ⟨client, -⟩ | ⟨client, -⟩ <;> simp [idle] at client

theorem Coherent.of_waitWrite (h : Coherent d) (waits : d.bus.client = .waitWrite) :
    d.bus.trans.command = .write ∧ Writing d := by
  cases h with
  | idle client | back client | thrown client => simp [waits] at client
  | reading client => rcases client with client | client <;> simp [waits] at client
  | writing command proceeds =>
    rcases proceeds with ⟨-, writing⟩ | ⟨client, -⟩
    · exact ⟨command, writing⟩
    · simp [waits] at client

theorem Proceeds.schedule (h : Proceeds d) (ready : List Proc) (dirty : Bool) :
    Proceeds { d with ready := ready, dirty := dirty } :=
  h.imp
    (And.imp_right fun writing =>
      writing.beside ⟨⟨rfl, rfl⟩, rfl, fun _ => id, fun _ => id, fun _ => id, rfl⟩)
    (And.imp_right fun wrote => ⟨wrote.mem, wrote.next⟩)

/-- With no piece of a write in the device a clocked process shows nothing new but markers. -/
private theorem process_of_empty (path : d.pathLoad = 0) (marked : Marked d) {q : Proc}
    (inside : q ∈ clocked) : (d.process q).mem = d.mem ∧ ∀ n,
      ((d.process q).responces.inResponce n).cur = (d.responces.inResponce n).cur ∧
      (((d.process q).responces.inResponce n).next = (d.responces.inResponce n).next ∨
        ((d.process q).responces.inResponce n).next = marker) := by
  refine ⟨mem_process path inside, fun n => ?_⟩
  by_cases own : q = .entryResponse
  · subst own
    refine ⟨d.responces.run_shown n, ?_⟩
    rcases entryResponse_spec marked with ⟨-, -, next⟩ | ⟨-, k, f, member, -⟩
    · exact next n
    · exact absurd (List.mem_append.mp member) (not_lies_of_empty path (.responceFifo k) f)
  · obtain ⟨markers, answers, same, -⟩ := d.process_responces own
    rw [same]
    exact ⟨rfl, Or.inl rfl⟩

private theorem coherent_clocked (reach : machine.Reachable d) (off : d.RulesOff)
    (h : Coherent d) (alive : d.bus.client ≠ .thrown) {q : Proc} (inside : q ∈ clocked)
    (runnable : d.runnable q = true) : Coherent (d.exec q) := by
  have call : SameCall d (d.process q) := .of_clocked inside
  have accounted := accounted_of_reachable reach
  by_cases waits : d.bus.client = .waitWrite
  · obtain ⟨command, writing⟩ := h.of_waitWrite waits
    refine .writing ?_ ((proceeds_clocked reach off waits writing inside).schedule _ true)
    exact (congrArg Transaction.command call.trans).trans command
  -- no write is under way
  have path := (accounted.no_write waits).2
  obtain ⟨mem, shown⟩ := process_of_empty path (marked_of_reachable reach off) inside
  have client : (d.exec q).bus.client = d.bus.client := by
    obtain ⟨notify, pending, bus⟩ := d.process_signal inside
    change (d.process q).bus.client = _
    rw [bus, Bus.signal_client]
    simp [waits]
  have call : SameCall d (d.exec q) := ⟨call.trans, call.returned⟩
  have mem : (d.exec q).mem = d.mem := mem
  have steady (was : Steady d) : Steady (d.exec q) :=
    was.congr call (fun n => (shown n).1) fun n => (shown n).2
  cases h with
  | idle at_ old was =>
    exact .idle (client.trans at_) (by rw [mem, call.settled, old]) (steady was)
  | back at_ old next =>
    refine .back (client.trans at_) (by rw [mem, call.settled, old]) fun n => ?_
    rw [call.settled]
    rcases (shown n).2 with same | new
    · exact (congrArg _ same).mpr (next n)
    · exact (congrArg _ new).mpr (Contents.shows_marker n)
  | thrown at_ => exact absurd at_ alive
  | reading at_ command old was v fetching answers =>
    refine .reading (client.symm ▸ at_) ?_ ?_ (steady was) v ?_ ?_
    · rw [call.trans, command]
    · rw [mem, call.settled, old]
    · rw [call.trans, call.returned]
      exact fetching_step reach fetching (.run q runnable)
    · rw [call.settled, call.trans]
      exact answers
  | writing command proceeds =>
    rcases proceeds with ⟨at_, -⟩ | ⟨notified, wrote⟩
    · exact absurd at_ waits
    refine .writing (by rw [call.trans, command]) (Or.inr ⟨client.trans notified, ?_, fun n => ?_⟩)
    · rw [mem, call.coming, wrote.mem]
    · rw [call.coming]
      rcases (shown n).2 with same | new
      · exact (congrArg _ same).mpr (wrote.next n)
      · exact (congrArg _ new).mpr (Contents.shows_marker n)

/-- What is proved of every state: the calls that have returned are right, and the next one
will be. -/
def Faithful (d : Device) : Prop := Contents.Right d.bus.returned ∧ Coherent d

/-- A call returns. -/
private theorem faithful_returns (h : Faithful d) (notified : d.bus.client = .notified) :
    Faithful (d.exec .client) := by
  obtain ⟨right, coherent⟩ := h
  cases coherent with
  | idle client | back client | thrown client => simp [notified] at client
  | reading _ command mem steady v fetching answers =>
    have value : d.bus.mRegisterRead = v := by
      cases fetching with
      | asked client | sent k client => simp [notified] at client
      | ended client value => exact value
      | back more returned =>
        have longer := congrArg List.length returned
        simp at longer
    have returned : (d.exec .client).bus.returned = d.bus.returned ++ [d.bus.trans.answered v] := by
      simp [exec, process, Bus.returns, Bus.finish, Transaction.answered, value]
    have unchanged : (d.exec .client).settled = d.settled := by
      unfold settled
      rw [returned, Contents.ofLog_snoc]
      apply Contents.after_of_not_write
      unfold Transaction.answered
      split <;> simp [command]
    refine ⟨returned ▸ Contents.right_snoc right answers, .back rfl ?_ fun n => ?_⟩
    · rw [unchanged]
      exact mem
    · rw [unchanged]
      exact steady.next_shows rfl
  | writing command proceeds =>
    rcases proceeds with ⟨waits, -⟩ | ⟨-, wrote⟩
    · simp [notified] at waits
    have returned : (d.exec .client).bus.returned = d.bus.returned ++ [d.bus.trans] := by
      simp [exec, process, Bus.returns, Bus.finish, command]
    have new : (d.exec .client).settled = d.coming := by
      unfold settled
      rw [returned, Contents.ofLog_snoc]
      rfl
    refine ⟨returned ▸ Contents.right_snoc right ?_, .back rfl ?_ fun n => ?_⟩
    · exact fun read => by simp [command] at read
    · rw [new]
      exact wrote.mem
    · rw [new]
      exact wrote.next n

/-- What a read of an address is to bring back is right. -/
private theorem answers_of_content (mem : d.mem = d.settled.cell) (steady : Steady d)
    {t : Transaction} : d.settled.Answers (t.answered (d.content t.address)) := by
  intro read call
  have plain : t.command = .read ∧ t.call = .bTransport := by
    unfold Transaction.answered at read call
    split at read
    next both => exact both
    next other => exact absurd ⟨read, by simpa [other] using call⟩ other
  have value : t.answered (d.content t.address) = { t with data := d.content t.address } :=
    if_pos plain
  rw [value]
  constructor
  · intro k window
    simp only at window ⊢
    simp [content, window, mem]
  · intro i address
    simp only at address ⊢
    have shown := steady.shown i
    simpa [content, address, directPort_dRP, readTarget_dRP, readRegister] using shown

private theorem egress_low (path : d.pathLoad = 0) (k : Port) :
    (d.egress k).handshake.preready = false := by
  have egress : ∑ j, (d.egress j).load = 0 := by
    unfold pathLoad at path
    omega
  have own := Finset.sum_eq_zero_iff.mp egress k (Finset.mem_univ k)
  simp only [Egress.load, Handshake.load, Nat.add_eq_zero_iff] at own
  simpa using own.2

/-- A call begins. -/
private theorem faithful_request (reach : machine.Reachable d) (h : Faithful d)
    (idle : d.bus.client = .idle) (t : Transaction) : Faithful (d.request t) := by
  obtain ⟨right, coherent⟩ := h
  obtain ⟨mem, steady⟩ := coherent.of_idle idle
  have accounted := accounted_of_reachable reach
  by_cases accepted : t.accepted
  swap
  · have bus : (d.request t).bus = { d.bus with client := .thrown, trans := t } := by
      simp [request, Bus.request, accepted]
    exact ⟨bus ▸ right, .thrown (by rw [bus])⟩
  -- a read or a write leaves the log alone
  have steady_of (returned : (d.request t).bus.returned = d.bus.returned) :
      (d.request t).settled = d.settled ∧ Steady (d.request t) := by
    have unchanged : (d.request t).settled = d.settled := by
      unfold settled
      rw [returned]
    exact ⟨unchanged, fun n => by rw [unchanged]; exact steady.shown n, steady.fresh⟩
  cases command : t.command with
  | ignore =>
    have bus : (d.request t).bus = d.bus.finish t := by
      simp [request, Bus.request, accepted, command]
    have unchanged : (d.request t).settled = d.settled := by
      unfold settled
      rw [bus]
      exact (Contents.ofLog_snoc ..).trans (Contents.after_of_not_write (by simp [command]))
    refine ⟨?_, .back (by rw [bus]; rfl) (by rw [unchanged]; exact mem) fun n => ?_⟩
    · rw [bus]
      exact Contents.right_snoc right fun read => by simp [command] at read
    · rw [unchanged]
      exact steady.next_shows rfl
  | read =>
    have bus := accounted.request_read idle accepted command
    have returned : (d.request t).bus.returned = d.bus.returned := by rw [bus]
    obtain ⟨unchanged, steady'⟩ := steady_of returned
    refine ⟨returned ▸ right, .reading (Or.inl (by rw [bus])) ?_ ?_ steady' (d.content t.address)
      (returned ▸ fetching_request reach idle accepted command) ?_⟩
    · rw [bus]
      dsimp only
      split <;> exact command
    · rw [unchanged]
      exact mem
    · rw [unchanged, bus]
      dsimp only
      split
      next debug =>
        -- a debug read has its bytes already
        intro _ call
        simp [Transaction.answered, debug] at call
      next => exact answers_of_content mem steady
  | write =>
    have bus := accounted.request_write idle accepted command
    have returned : (d.request t).bus.returned = d.bus.returned := by rw [bus]
    obtain ⟨unchanged, steady'⟩ := steady_of returned
    have path := (accounted.no_write (by simp [idle])).2
    have read := (accounted.no_read (by simp [idle])).2
    refine ⟨returned ▸ right, .writing (by rw [bus]; exact command) (Or.inl ⟨by rw [bus], ?_⟩)⟩
    -- nothing of a write is in the device yet
    constructor
    case stage =>
      refine .before ?_ (egress_low path) fun k => (direct_empty path read k).2
      rw [unchanged]
      exact mem
    case answers =>
      rintro f ⟨k, member | at_⟩
      · exact absurd (List.mem_append.mp member) (not_lies_of_empty path (.responceFifo k) f)
      · have at_ : (d.egress k).pc = .writeResponce f := at_
        have blocked : d.Lies (.blocked k) f := Or.inr (by simp [fresh, at_])
        exact absurd blocked (not_lies_of_empty path (.blocked k) f)
    case steady => exact steady'

/-- The channels are updated: a call that is back ends. -/
private theorem faithful_update (reach : machine.Reachable d) (h : Faithful d)
    (quiescent : d.quiescent = true) (dirty : d.dirty = true) : Faithful d.update := by
  obtain ⟨right, coherent⟩ := h
  refine ⟨right, ?_⟩
  have call : SameCall d d.update := ⟨rfl, rfl⟩
  -- a call whose end is known returns before the update
  have returns : d.bus.client ≠ .notified := by
    have rests := List.all_eq_true.mp quiescent .client (by decide)
    simpa [Device.runnable] using rests
  have steady (was : Steady d) : Steady d.update :=
    ⟨fun n => was.next_shows rfl, fun n => Or.inl rfl⟩
  cases coherent with
  | idle client mem was =>
    refine .idle ?_ mem (steady was)
    simp [update, client]
  | back client mem next =>
    refine .idle ?_ mem ⟨next, fun _ => Or.inl rfl⟩
    simp [update, client]
  | thrown client =>
    refine .thrown ?_
    simp [update, client]
  | reading client command mem was v fetching answers =>
    have client := client.resolve_right returns
    refine .reading (Or.inl ?_) command mem (steady was) v ?_ answers
    · simp [update, client]
    · exact fetching_step reach fetching (.delta quiescent dirty)
  | writing command proceeds =>
    rcases proceeds with ⟨client, writing⟩ | ⟨client, -⟩
    swap
    · exact absurd client returns
    refine .writing command (Or.inl ⟨by simp [update, client], ?_⟩)
    refine ⟨writing.stage.congr call rfl (fun _ => id) (fun _ => id), fun f held => ?_,
      steady writing.steady⟩
    refine writing.answers f ?_
    obtain ⟨k, held⟩ := held
    exact ⟨k, held.imp_left fun member => by simpa [update] using member⟩

/-- A run of the write thread. -/
private theorem faithful_writeThread (reach : machine.Reachable d) (h : Faithful d)
    (busy : d.bus.writeThread ≠ .wait) : Faithful (d.exec .executeWriteThread) := by
  obtain ⟨right, coherent⟩ := h
  have waits := ((accounted_of_reachable reach).writing busy).1
  obtain ⟨command, writing⟩ := coherent.of_waitWrite waits
  have after := (proceeds_executeWriteThread reach waits writing).schedule
    (d.ready.erase .executeWriteThread) true
  obtain ⟨_, _, _, _, _, _, same, -⟩ := d.executeWriteThread_frame
  refine ⟨?_, .writing ?_ after⟩
  all_goals simp only [exec, process, same]
  · exact right
  · exact command

/-- A run of the read thread. -/
private theorem faithful_readThread (reach : machine.Reachable d) (h : Faithful d)
    (runnable : d.runnable .executeReadThread = true) (busy : d.bus.readThread ≠ .wait) :
    Faithful (d.exec .executeReadThread) := by
  obtain ⟨right, coherent⟩ := h
  have waits := ((accounted_of_reachable reach).reading busy).1
  cases coherent with
  | idle client | back client | thrown client => simp [waits] at client
  | writing _ proceeds =>
    rcases proceeds with ⟨client, -⟩ | ⟨client, -⟩ <;> simp [waits] at client
  | reading _ command mem steady v fetching answers =>
    have after := fetching_step reach fetching (.run _ runnable)
    obtain ⟨client, value, thread, direct, same, woken⟩ := d.executeReadThread_frame
    have result : d.exec .executeReadThread =
        { d with
          bus := { d.bus with client := client, mRegisterRead := value, readThread := thread }
          direct := direct
          ready := d.ready.erase .executeReadThread
          dirty := true } := by
      rw [exec, process, same]
    rw [result] at after ⊢
    refine ⟨right, .reading ?_ command mem ⟨steady.shown, steady.fresh⟩ v after answers⟩
    exact woken.imp_left fun kept => kept.trans waits

/-- The clock rises: only the processes that are ready change. -/
private theorem faithful_edge (reach : machine.Reachable d) (h : Faithful d)
    (quiescent : d.quiescent = true) (clean : d.dirty = false) : Faithful d.edge := by
  obtain ⟨right, coherent⟩ := h
  refine ⟨right, ?_⟩
  cases coherent with
  | idle client mem steady => exact .idle client mem ⟨steady.shown, steady.fresh⟩
  | back client mem next => exact .back client mem next
  | thrown client => exact .thrown client
  | writing command proceeds => exact .writing command (proceeds.schedule _ d.dirty)
  | reading client command mem steady v fetching answers =>
    exact .reading client command mem ⟨steady.shown, steady.fresh⟩ v
      (fetching_step reach fetching (.edge quiescent clean)) answers

theorem faithful_step {a : Action} (reach : machine.Reachable d) (off : d.RulesOff)
    (h : Faithful d) (hs : machine.step d a = some e) : Faithful e := by
  have alive := (step_iff.mp hs).1
  cases move_of_step hs with
  | request t idle => exact faithful_request reach h idle t
  | edge quiescent clean => exact faithful_edge reach h quiescent clean
  | delta quiescent dirty => exact faithful_update reach h quiescent dirty
  | run q runnable =>
    rcases clocked_or_thread q with inside | rfl | rfl | rfl
    · have call : SameCall d (d.process q) := .of_clocked inside
      exact ⟨call.returned ▸ h.1, coherent_clocked reach off h.2 alive inside runnable⟩
    · exact faithful_returns h (by simpa [Device.runnable] using runnable)
    · refine faithful_writeThread reach h ?_
      intro rests
      simp [Device.runnable, rests] at runnable
    · refine faithful_readThread reach h runnable ?_
      intro rests
      simp [Device.runnable, rests] at runnable

theorem faithful_of_reachable (h : machine.Reachable d) (off : d.RulesOff) : Faithful d := by
  refine (h.invariant (I := fun d => machine.Reachable d ∧ (d.RulesOff → Faithful d))
    ⟨machine.reachable_init, fun _ => ?_⟩ ?_).2 off
  · refine ⟨fun before t later same => ?_, .idle rfl rfl ⟨fun n => ?_, fun n => Or.inl rfl⟩⟩
    · simp [machine, Device.new, Bus.new] at same
    · right
      intro x asked
      cases asked
  · rintro d a e ⟨reach, faithful⟩ hs
    refine ⟨reach.step hs, fun off => ?_⟩
    have before := rulesOff_of_transition (transition_of_move (move_of_step hs)) off
    exact faithful_step reach before (faithful before) hs

end Device

end ScCosim.Firewall
