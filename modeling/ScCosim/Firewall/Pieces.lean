import ScCosim.Firewall.Transit
import ScCosim.Firewall.WriteEnds

/-!
# Whose the pieces are

Whatever a write has set off in the device, in a thread, a FIFO or a switch, belongs to the
call that the initiator waits for: the words and packets carry its data, the direct requests
its address. When a call starts there is nothing else, and no process makes anything up.
-/
namespace ScCosim.Firewall

open Kernel Async

namespace Transaction

/-- A write of this word to the packet register of port `i`. -/
structure Sends (t : Transaction) (i : Port) (w : Word) : Prop where
  command : t.command = .write
  above : directPort t.address = none
  target : writeTarget t.address = .packet i
  word : t.data = w

/-- A write of this word to this address in the direct window of BRAM `k`. -/
structure Reaches (t : Transaction) (k : Port) (address v : Word) : Prop where
  command : t.command = .write
  window : directPort t.address = some k
  address : t.address.truncate 32 = address
  word : t.data = v

end Transaction

/-- `direct_mem_out` takes requests and changes none. -/
theorem DirectStep.run_requests (base : Word) (s : DirectStep) :
    (run base s).direct.outAddress = s.direct.outAddress ∧
      (run base s).direct.outRead = s.direct.outRead ∧
      ∀ v ∈ (run base s).direct.dirMemOutFifo.contents,
        v ∈ s.direct.dirMemOutFifo.contents := by
  have answer (t : DirectStep) (u : Word) :
      (t.writeResponce u).direct.outAddress = t.direct.outAddress ∧
        (t.writeResponce u).direct.outRead = t.direct.outRead ∧
        (t.writeResponce u).direct.dirMemOutFifo = t.direct.dirMemOutFifo := by
    rcases t.writeResponce_spec u with room | full
    · rw [room]
      exact ⟨rfl, rfl, rfl⟩
    · rw [full]
      exact ⟨rfl, rfl, rfl⟩
  have spec := run_spec base s
  generalize run base s = t at spec ⊢
  cases spec with
  | start | init | rest | lower => exact ⟨rfl, rfl, fun _ => id⟩
  | resume u pc =>
    obtain ⟨address, out, fifo⟩ := answer s u
    exact ⟨address, out, fun v member => fifo ▸ member⟩
  | access u rest pc free read =>
    have front := (Fifo.contents_of_nbRead read).1
    unfold access
    split
    · -- the request of a read becomes its answer
      obtain ⟨address, out, fifo⟩ := answer { s with direct.dirMemOutFifo := rest }
        (s.mem (s.direct.outAddress - base))
      refine ⟨address, out, fun v member => ?_⟩
      rw [fifo] at member
      exact front ▸ List.mem_cons_of_mem u member
    · exact ⟨rfl, rfl, fun v member => front ▸ List.mem_cons_of_mem u member⟩

namespace Device

variable {d e : Device}

/-- The packet is at this place. -/
def Lies (d : Device) (s : Spot) (f : Flit) : Prop := f ∈ d.ripe s ∨ f ∈ d.fresh s

/-- A packet at a place after a step was at one before, or is sent now. -/
theorem lies_of_step {a : Action} (hs : machine.step d a = some e) {s : Spot} {f : Flit}
    (lies : e.Lies s f) : (∃ r g, d.Lies r g ∧ g.origin = f.origin) ∨
      ∃ i, a = .run (.interfaceIn i) ∧ f ∈ d.sends i := by
  have due : ∃ n, e.Due f n := by
    rcases lies with ripe | fresh
    · by_cases ready : s.reader ∈ e.ready
      · exact ⟨_, .now s ripe ready⟩
      · exact ⟨_, .later s ripe ready⟩
    · exact ⟨_, .fresh s fresh⟩
  obtain ⟨n, due⟩ := due
  have opened : openMachine.step d (.inl a) = some e := hs
  rcases d.due_of_step opened due with ⟨g, m, was, same, -⟩ | ⟨i, at_, sent, -⟩
  · left
    cases was with
    | now r member | later r member => exact ⟨r, g, Or.inl member, same⟩
    | fresh r member => exact ⟨r, g, Or.inr member, same⟩
  · exact Or.inr ⟨i, Sum.inl.inj at_, sent⟩

/-- Every piece of a write belongs to the running call. -/
structure Owned (d : Device) : Prop where
  asked : d.bus.writeThread = .notified → d.bus.trans.command = .write ∧
    d.bus.mWriteAddress = d.bus.trans.address ∧ d.bus.mRegisterWrite = d.bus.trans.data
  held : ∀ i w, d.bus.writeThread = .writeIn i w → d.bus.trans.Sends i w
  words : ∀ i, ∀ w ∈ (d.ingress i).in_.contents, d.bus.trans.Sends i w
  forwarding : ∀ i f, (d.ingress i).pc = .writeForward f →
    d.bus.trans.Sends f.origin.port f.origin.word
  flits : ∀ s f, d.Lies s f → d.bus.trans.Sends f.origin.port f.origin.word
  heldDirect : ∀ k v, d.bus.writeThread = .writeDirect k v →
    d.bus.trans.Reaches k (d.direct k).outAddress v
  requests : ∀ k, (d.direct k).outRead = false → ∀ v ∈ (d.direct k).dirMemOutFifo.contents,
    d.bus.trans.Reaches k (d.direct k).outAddress v

/-! ### An empty device -/

/-- A packet on its way is one of the pieces. -/
theorem not_lies_of_empty (path : d.pathLoad = 0) (s : Spot) (f : Flit) : ¬ d.Lies s f := by
  have switch : d.switch.load = 0 := by unfold pathLoad at path; omega
  have egress : ∑ k, (d.egress k).load = 0 := by unfold pathLoad at path; omega
  have answers : d.responces.load = 0 := by unfold pathLoad at path; omega
  have none {fifo : Fifo Flit} (zero : fifo.held = 0) : fifo.readable = [] ∧ fifo.written = [] := by
    rwa [Fifo.held_eq_zero, Fifo.contents, List.append_eq_nil_iff] at zero
  unfold Switch.load at switch
  have inFifo : ∑ j, (d.switch.inFifo j).held = 0 := by omega
  have stages : ∑ a, ∑ b, (d.switch.outFifoS a b).held = 0 := by omega
  have outFifo : ∑ k, (d.switch.outFifo k).held = 0 := by omega
  have nothing : ∀ s, d.ripe s = [] ∧ d.fresh s = [] := by
    intro s
    cases s with
    | inFifo i => exact none (Finset.sum_eq_zero_iff.mp inFifo i (Finset.mem_univ i))
    | stage a b =>
      have row := Finset.sum_eq_zero_iff.mp stages a (Finset.mem_univ a)
      exact none (Finset.sum_eq_zero_iff.mp row b (Finset.mem_univ b))
    | outFifo k => exact none (Finset.sum_eq_zero_iff.mp outFifo k (Finset.mem_univ k))
    | responceFifo k => exact none (Finset.sum_eq_zero_iff.mp answers k (Finset.mem_univ k))
    | blocked k =>
      -- a blocked process would be a piece
      have zero := Finset.sum_eq_zero_iff.mp egress k (Finset.mem_univ k)
      refine ⟨rfl, ?_⟩
      cases pc : (d.egress k).pc with
      | writeResponce g => simp [Egress.load, pc, EgressPc.load] at zero
      | start | init | loop => simp [fresh, pc]
  simp [Lies, nothing s]

theorem owned_of_empty (path : d.pathLoad = 0)
    (thread : d.bus.writeThread = .wait ∨ d.bus.writeThread = .notified ∧
      d.bus.trans.command = .write ∧ d.bus.mWriteAddress = d.bus.trans.address ∧
      d.bus.mRegisterWrite = d.bus.trans.data) : Owned d := by
  have ingress := ingress_empty path
  have writes : ∑ j, (d.direct j).writeLoad = 0 := by
    unfold pathLoad at path
    omega
  constructor
  case asked =>
    intro at_
    rcases thread with rests | ⟨-, same⟩
    · simp [rests] at at_
    · exact same
  case held => rcases thread with rests | ⟨rests, -⟩ <;> simp [rests]
  case heldDirect => rcases thread with rests | ⟨rests, -⟩ <;> simp [rests]
  case words =>
    intro i w member
    rw [Fifo.held_eq_zero.mp (ingress i).1] at member
    cases member
  case forwarding =>
    intro i f at_
    have zero := (ingress i).2
    simp [at_, IngressPc.load] at zero
  case flits => exact fun s f lies => absurd lies (not_lies_of_empty path s f)
  case requests =>
    intro k out v member
    have own := Finset.sum_eq_zero_iff.mp writes k (Finset.mem_univ k)
    have empty : (d.direct k).dirMemOutFifo.held = 0 := by
      simp only [Direct.writeLoad, out, Bool.false_eq_true, if_false] at own
      omega
    rw [Fifo.held_eq_zero.mp empty] at member
    cases member

/-! ### Clocked processes -/

/-- A packet that `interface_in_i` makes now is of a word in `in_i`. -/
theorem word_of_enters {i : Port} {f : Flit} (new : d.Enters i f) :
    f.origin.port = i ∧ f.origin.word ∈ (d.ingress i).in_.contents := by
  obtain ⟨w, rfl, -, taken⟩ := new
  refine ⟨rfl, ?_⟩
  change w ∈ (d.ingress i).in_.contents
  have taken : (d.judged i).ingress.taken =
      (d.ingress i).taken ++ [⟨w, (d.ingress i).fwRead, .forwarded⟩] := taken
  cases d.latching_judged i with
  | take u rest outcome seen read passed fwRead preReadR in_ more =>
    rw [more] at taken
    simp only [List.append_cancel_left_eq, List.cons.injEq, Taken.mk.injEq] at taken
    rw [(Fifo.contents_of_nbRead read).1, taken.1.1]
    exact List.mem_cons_self ..
  -- otherwise nothing is taken
  | reset pc fwRead preReadR in_ same => simp [same] at taken
  | latch pc new result => simp [result] at taken
  | stay pc keeps => simp [keeps.taken] at taken

private theorem owned_interfaceIn {i : Port} (h : Owned d) :
    (∀ w ∈ (d.judged i).ingress.in_.contents, d.bus.trans.Sends i w) ∧
      (∀ f, (d.judged i).ingress.pc = .writeForward f →
        d.bus.trans.Sends f.origin.port f.origin.word) ∧
      ∀ f ∈ d.sends i, d.bus.trans.Sends f.origin.port f.origin.word := by
  have entering : ∀ f, d.Enters i f → d.bus.trans.Sends f.origin.port f.origin.word := by
    intro f new
    obtain ⟨port, member⟩ := word_of_enters new
    rw [port]
    exact h.words i _ member
  obtain ⟨members, blocked⟩ := IngressStep.run_flits i (portBits i) (d.setup i).fwRange
    (d.responces.responceS i).cur
    ⟨d.ingress i, d.switch.inFifo i, d.responces.initResponceFifo i, false⟩
  refine ⟨fun w member => ?_, fun f at_ => ?_, fun f sent => ?_⟩
  · cases d.latching_judged i with
    | reset pc fwRead preReadR in_ => exact h.words i w (in_ ▸ member)
    | latch pc new result =>
      rw [result] at member
      exact h.words i w member
    | stay pc keeps => exact h.words i w (keeps.in_ ▸ member)
    | take u rest outcome seen read passed fwRead preReadR in_ =>
      rw [in_] at member
      exact h.words i w ((Fifo.contents_of_nbRead read).1 ▸ List.mem_cons_of_mem u member)
  · rcases blocked f at_ with old | ⟨new, -⟩
    · exact h.forwarding i f old
    · exact entering f new
  · have member : f ∈ (d.judged i).inFifo.contents :=
      List.mem_append_right _ (List.mem_of_mem_drop sent)
    rcases members f member with old | held | new
    · exact h.flits (.inFifo i) f (List.mem_append.mp old)
    · exact h.forwarding i f held
    · exact entering f new

private theorem owned_clocked (h : Owned d) {q : Proc} (inside : q ∈ clocked)
    (hs : machine.step d (.run q) = some (d.exec q)) : Owned (d.exec q) := by
  obtain ⟨notify, pending, bus⟩ := d.process_signal inside
  obtain ⟨c, r, frame, -⟩ := d.bus.signal_frame notify pending
  rw [frame] at bus
  have write : q ≠ .executeWriteThread := by
    rintro rfl
    simp [clocked] at inside
  have trans : (d.exec q).bus.trans = d.bus.trans := by simp [exec, bus]
  have thread : (d.exec q).bus.writeThread = d.bus.writeThread := by simp [exec, bus]
  have ingress (i : Port) : (∀ w ∈ ((d.exec q).ingress i).in_.contents, d.bus.trans.Sends i w) ∧
      ∀ f, ((d.exec q).ingress i).pc = .writeForward f →
        d.bus.trans.Sends f.origin.port f.origin.word := by
    by_cases own : q = .interfaceIn i
    · subst own
      have same : (d.exec (.interfaceIn i)).ingress i = (d.judged i).ingress := by
        simp [exec, interfaceIn, judged]
      obtain ⟨words, forwarding, -⟩ := owned_interfaceIn (i := i) h
      rw [same]
      exact ⟨words, forwarding⟩
    · have same : (d.exec q).ingress i = d.ingress i := d.process_ingress own write
      rw [same]
      exact ⟨h.words i, h.forwarding i⟩
  have direct (k : Port) : ((d.exec q).direct k).outAddress = (d.direct k).outAddress ∧
      ((d.exec q).direct k).outRead = (d.direct k).outRead ∧
      ∀ v ∈ ((d.exec q).direct k).dirMemOutFifo.contents,
        v ∈ (d.direct k).dirMemOutFifo.contents := by
    change ((d.process q).direct k).outAddress = _ ∧ ((d.process q).direct k).outRead = _ ∧
      ∀ v ∈ ((d.process q).direct k).dirMemOutFifo.contents, _
    by_cases out : q = .directMemOut k
    · subst out
      rw [directMemOut_direct]
      exact DirectStep.run_requests (memBase k) ⟨d.direct k, d.mem k, false, false⟩
    by_cases entry : q = .directentry k
    · subst entry
      rw [directentry_direct]
      exact ⟨rfl, rfl, fun _ => id⟩
    · rw [process_direct inside out entry]
      exact ⟨rfl, rfl, fun _ => id⟩
  constructor
  case asked => simpa [exec, bus] using h.asked
  case held => rw [trans, thread]; exact h.held
  case words => rw [trans]; exact fun i => (ingress i).1
  case forwarding => rw [trans]; exact fun i => (ingress i).2
  case flits =>
    intro s f lies
    rw [trans]
    rcases lies_of_step hs lies with ⟨r, g, was, same⟩ | ⟨i, -, sent⟩
    · rw [← same]
      exact h.flits r g was
    · exact (owned_interfaceIn h).2.2 f sent
  case heldDirect =>
    intro k v
    rw [trans, thread, (direct k).1]
    exact h.heldDirect k v
  case requests =>
    intro k out v member
    rw [trans, (direct k).1]
    exact h.requests k ((direct k).2.1 ▸ out) v ((direct k).2.2 v member)

/-! ### The write thread -/

section thread

variable {k i : Port} {v : Word}

/-- With nothing behind the thread, only where it puts its word matters. -/
private theorem owned_writeIn (path : d.pathLoad = 0) (sends : d.bus.trans.Sends i v) :
    Owned (d.writeIn i v) := by
  have empty := owned_of_empty (d := { d with bus.writeThread := .wait }) path (Or.inl rfl)
  unfold writeIn
  split
  · constructor
    case asked => simp
    case held => simp
    case heldDirect => simp
    case flits => exact empty.flits
    case requests => exact empty.requests
    case words =>
      intro j w member
      by_cases same : j = i
      · subst same
        simp only [Function.update_self, Fifo.push_contents,
          Fifo.held_eq_zero.mp (ingress_empty path j).1, List.nil_append,
          List.mem_singleton] at member
        exact member ▸ sends
      · exact empty.words j w (by simpa [same] using member)
    case forwarding =>
      intro j f at_
      by_cases same : j = i
      · subst same
        exact empty.forwarding j f (by simpa using at_)
      · exact empty.forwarding j f (by simpa [same] using at_)
  · refine ⟨by simp, fun j w at_ => ?_, empty.words, empty.forwarding, empty.flits, by simp,
      empty.requests⟩
    cases at_
    exact sends

private theorem owned_writeDirect (path : d.pathLoad = 0)
    (out : (d.direct k).outRead = false)
    (reaches : d.bus.trans.Reaches k (d.direct k).outAddress v) : Owned (d.writeDirect k v) := by
  have empty := owned_of_empty (d := { d with bus.writeThread := .wait }) path (Or.inl rfl)
  have writes : ∑ j, (d.direct j).writeLoad = 0 := by
    unfold pathLoad at path
    omega
  have own := Finset.sum_eq_zero_iff.mp writes k (Finset.mem_univ k)
  have none : (d.direct k).dirMemOutFifo.contents = [] := by
    simp only [Direct.writeLoad, out, Bool.false_eq_true, if_false] at own
    exact Fifo.held_eq_zero.mp (by omega)
  unfold writeDirect
  split
  · constructor
    case asked => simp
    case held => simp
    case heldDirect => simp
    case words => exact empty.words
    case forwarding => exact empty.forwarding
    case flits => exact empty.flits
    case requests =>
      intro j read w member
      by_cases same : j = k
      · subst same
        simp only [Function.update_self, Fifo.push_contents, none, List.nil_append,
          List.mem_singleton] at member ⊢
        exact member ▸ reaches
      · simp only [Function.update_of_ne same] at read member ⊢
        exact empty.requests j read w member
  · refine ⟨by simp, by simp, empty.words, empty.forwarding, empty.flits, fun j w at_ => ?_,
      empty.requests⟩
    cases at_
    exact reaches

private theorem owned_executeWriteThread (reach : machine.Reachable d) (h : Owned d)
    (busy : d.bus.writeThread ≠ .wait) : Owned d.executeWriteThread := by
  have accounted := accounted_of_reachable reach
  obtain ⟨client, path, -, read⟩ := accounted.writing busy
  unfold executeWriteThread
  cases at_ : d.bus.writeThread with
  | wait => exact absurd at_ busy
  | writeIn i v => exact owned_writeIn path (h.held i v at_)
  | writeDirect k v =>
    exact owned_writeDirect path (accounted.writeDirect k v at_) (h.heldDirect k v at_)
  | notified =>
    obtain ⟨command, address, word⟩ := h.asked at_
    simp only [decodeWrite]
    split
    next k window =>
      have empty := (direct_empty path read k).1
      have load := (load_setDirect (d := d.logServed) k d.bus.mWriteAddress false empty).1
      apply owned_writeDirect (load.trans path)
      · simp [setDirect]
      · refine ⟨command, address ▸ window, ?_, word.symm⟩
        simp [setDirect, address, logServed]
    next above =>
      split
      next i target =>
        exact owned_writeIn (d := d.logServed) path ⟨command, address ▸ above, address ▸ target, word.symm⟩
      -- the other writes leave nothing behind
      case h_5 => exact owned_of_empty path (Or.inl rfl)
      all_goals
        apply owned_of_empty
        · exact path
        · left
          simp [decodeSetup, writeSetup, logServed, Bus.notifyWriteEnded, client]

end thread

/-! ### Every step -/

theorem owned_step {a : Action} (reach : machine.Reachable d) (h : Owned d)
    (hs : machine.step d a = some e) : Owned e := by
  have later := accounted_of_reachable (reach.step hs)
  by_cases waits : e.bus.client = .waitWrite
  swap
  · obtain ⟨writer, path⟩ := later.no_write waits
    exact owned_of_empty path (Or.inl writer)
  cases move_of_step hs with
  | request t idle =>
    -- a call that waits for a write has just asked the write thread
    obtain ⟨rests, path⟩ := (accounted_of_reachable reach).no_write (by simp [idle])
    refine owned_of_empty path (Or.inr ?_)
    have asks : (d.request t).bus = { d.bus with
        client := .waitWrite
        trans := t
        mWriteAddress := t.address
        mRegisterWrite := t.data
        writeThread := .notified } ∧ t.command = .write := by
      change (d.bus.request t).client = _ at waits
      change d.bus.request t = _ ∧ _
      unfold Bus.request at waits ⊢
      split at waits
      next accepted =>
        split at waits
        next read =>
          simp only [Bus.notifyRead] at waits
          split at waits <;> simp at waits
        next write => simp [accepted, write, Bus.notifyWrite, rests]
        next => simp [Bus.finish] at waits
      next => simp at waits
    rw [asks.1]
    exact ⟨rfl, asks.2, rfl, rfl⟩
  | edge =>
    exact ⟨h.asked, h.held, h.words, h.forwarding, h.flits, h.heldDirect, h.requests⟩
  | delta =>
    refine ⟨h.asked, h.held, fun i w member => ?_, h.forwarding, fun s f lies => ?_, h.heldDirect,
      fun k out v member => ?_⟩
    · exact h.words i w (by simpa [update] using member)
    · rcases lies_of_step hs lies with ⟨r, g, was, same⟩ | ⟨i, at_, -⟩
      · rw [← same]
        exact h.flits r g was
      · cases at_
    · exact h.requests k out v (by simpa [update] using member)
  | run q runnable =>
    rcases clocked_or_thread q with inside | rfl | rfl | rfl
    · exact owned_clocked h inside hs
    · simp [exec, process, Bus.returns, Bus.finish] at waits
    · have busy : d.bus.writeThread ≠ .wait := by
        intro rests
        simp [Device.runnable, rests] at runnable
      have after := owned_executeWriteThread reach h busy
      exact ⟨after.asked, after.held, after.words, after.forwarding, after.flits,
        after.heldDirect, after.requests⟩
    · -- the read thread runs for a read only
      have busy : d.bus.readThread ≠ .wait := by
        intro rests
        simp [Device.runnable, rests] at runnable
      obtain ⟨client, _, _, _, same, woken⟩ := d.executeReadThread_frame
      have reads := (accounted_of_reachable reach).read busy
      simp only [exec, process, same] at waits
      rcases woken with was | was <;> simp [was, reads] at waits

theorem owned_of_reachable (h : machine.Reachable d) : Owned d := by
  refine (h.invariant (I := fun d => machine.Reachable d ∧ Owned d)
    ⟨machine.reachable_init, owned_of_empty ?_ (Or.inl rfl)⟩ ?_).2
  · exact ((accounted_of_reachable machine.reachable_init).no_write (by
      simp [machine, Device.new, Bus.new])).2
  · rintro d a e ⟨reach, owned⟩ hs
    exact ⟨reach.step hs, owned_step reach owned hs⟩

end Device

end ScCosim.Firewall
