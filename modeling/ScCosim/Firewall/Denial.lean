import ScCosim.Firewall.Routing
import ScCosim.Firewall.Rules
import ScCosim.Firewall.Tokens

/-!
# The answer of a denied read

A denied read is acknowledged when its zero is in `init_responce_fifo`; the register that
the initiator reads next shows it one run of `entry_response` and one update later. Once the
zero is there it stays: no read of the port is on its way, so nothing else can be published.
-/
namespace ScCosim.Firewall

open Kernel Async

/-! ### Denied reads on record -/

/-- A word of a read that was looked at. -/
def Taken.isRead (j : Taken) : Bool := opcode j.word == 1 && j.outcome != .repeated

/-- The last read that the port took. -/
def Ingress.lastRead (g : Ingress) : Option Taken := (g.taken.filter Taken.isRead).getLast?

/-- The last read that the port took was denied. -/
def Ingress.Denied (g : Ingress) : Prop := g.lastRead.map Taken.outcome = some .hit

instance (g : Ingress) : Decidable g.Denied := by
  unfold Ingress.Denied
  infer_instance

theorem Ingress.denied_of_taken {g g' : Ingress} (h : g'.taken = g.taken) :
    g'.Denied ↔ g.Denied := by
  simp [Ingress.Denied, Ingress.lastRead, h]

/-- A word that is no read, or a repeated one, leaves the last read as it was. -/
theorem Ingress.denied_of_other {g g' : Ingress} {j : Taken} (h : g'.taken = g.taken ++ [j])
    (other : j.isRead = false) : g'.Denied ↔ g.Denied := by
  simp [Ingress.Denied, Ingress.lastRead, h, other]

theorem Ingress.denied_of_read {g g' : Ingress} {j : Taken} (h : g'.taken = g.taken ++ [j])
    (read : j.isRead = true) : g'.Denied ↔ j.outcome = .hit := by
  simp [Ingress.Denied, Ingress.lastRead, h, read]

/-! ### What is published last -/

/-- What `in_responce_i` will hold when all of port `i`'s markers are published. -/
def Responces.latest (r : Responces) (i : Port) : Word :=
  (r.initResponceFifo i).contents.getLast?.getD (r.inResponce i).next

/-- Only answers to the port change what will be published last there. -/
theorem Responces.run_latest (r : Responces) (i : Port)
    (others : ∀ n, ∀ f ∈ (r.responceFifo n).contents, portOf (dest f.word) ≠ i) :
    r.run.1.latest i = r.latest i := by
  have spec := r.run_spec
  generalize r.run = t at spec ⊢
  cases spec with
  | reset | rest => rfl
  | marker n v rest read =>
    -- the marker moves from the fifo into the register: published last or not, it is the same word
    obtain ⟨contents, -⟩ := Fifo.contents_of_nbRead read
    by_cases same : i = n
    · subst same
      simp [latest, publishInit, publish, contents, List.getLast?_cons]
    · simp [latest, publishInit, publish, same]
  | answer n f rest none read =>
    obtain ⟨contents, -⟩ := Fifo.contents_of_nbRead read
    -- the answer goes to the register of the port that it names
    have away := others n f (contents ▸ List.mem_cons_self ..)
    rw [← dest_clearPending] at away
    simp [latest, publishAnswer, publish, Function.update_of_ne (Ne.symm away)]

namespace IngressStep

/-- What one run of `interface_in` does to the record of reads and to the markers. -/
inductive Marking (s t : IngressStep) : Prop
  | kept (denied : t.ingress.Denied ↔ s.ingress.Denied)
      (markers : t.initResponceFifo = s.initResponceFifo)
      (was : s.ingress.pc ≠ .writeHit) (is : t.ingress.pc ≠ .writeHit)
  /-- A read that was not denied. -/
  | other (answered : ¬ t.ingress.Denied)
  /-- A read that was denied just now: its zero is the last marker, or has yet to be. -/
  | denied (w : Word) (rest : Fifo Word) (read : s.ingress.in_.nbRead = some (w, rest))
      (last : t.ingress.pc ≠ .writeHit →
        t.initResponceFifo.contents = s.initResponceFifo.contents ++ [0])
  | resumed (denied : t.ingress.Denied ↔ s.ingress.Denied)
      (last : t.ingress.pc ≠ .writeHit →
        t.initResponceFifo.contents = s.initResponceFifo.contents ++ [0])
  | forwarding (f : Flit) (pc : s.ingress.pc = .writeForward f)
      (denied : t.ingress.Denied ↔ s.ingress.Denied)

theorem marking_run (i : Port) (source : BitVec 2) (fw : Triple) (responceS : Word)
    (s : IngressStep) : Marking s (run i source fw responceS s) := by
  have hit : ∀ t : IngressStep, t.writeHit.ingress.pc ≠ .writeHit →
      t.writeHit.initResponceFifo.contents = t.initResponceFifo.contents ++ [0] := by
    intro t
    unfold writeHit
    split <;> simp [finishHit]
  have spec := run_spec i source fw responceS s
  generalize run i source fw responceS s = t at spec ⊢
  cases spec with
  | reset pc | init pc | wait1 pc =>
    exact .kept (Ingress.denied_of_taken rfl) rfl (by simp [pc]) (by simp [reset])
  | latch pc | idle pc =>
    exact .kept (Ingress.denied_of_taken rfl) rfl (by simp [pc]) (by simp [latch, pc])
  | repeated w rest pc =>
    -- a repeated word is never counted as a read
    apply Marking.kept
    · exact Ingress.denied_of_other (g := s.ingress) rfl (by simp [Taken.isRead])
    · rfl
    · simp [pc]
    · simp [take, pc]
  | hit w rest pc seen read hit op =>
    apply Marking.kept
    · exact Ingress.denied_of_other (g := s.ingress) rfl (by simpa [Taken.isRead] using op)
    · rfl
    · simp [pc]
    · simp [finishHit]
  | forward w rest pc seen read miss op =>
    apply Marking.kept
    · exact Ingress.denied_of_other (g := s.ingress) rfl (by simpa [Taken.isRead] using op)
    · rfl
    · simp [pc]
    · simp [IngressStep.forward]
  | drop w rest pc =>
    -- the word meant for no port may be a read or not
    by_cases op : opcode w = 1
    · apply Marking.other
      intro denied
      rw [Ingress.denied_of_read (g := s.ingress) rfl (by simp [Taken.isRead, op])] at denied
      cases denied
    · apply Marking.kept
      · exact Ingress.denied_of_other (g := s.ingress) rfl (by simpa [Taken.isRead] using op)
      · rfl
      · simp [pc]
      · simp [drop]
  | hitRead w rest pc seen read =>
    exact .denied w rest read (hit _)
  | forwardRead w rest pc seen read miss op =>
    apply Marking.other
    intro denied
    have taken := (((s.take rest w .forwarded).count w).keeps_writeForward (s.flit i source w)).taken
    rw [Ingress.denied_of_read (g := s.ingress) taken (by simp [Taken.isRead, op])] at denied
    cases denied
  | resumeHit => exact .resumed (Ingress.denied_of_taken s.keeps_writeHit.taken) (hit s)
  | resumeForward f pc =>
    exact .forwarding f pc (Ingress.denied_of_taken (s.keeps_writeForward f).taken)

end IngressStep

namespace Device

/-! ### The zero is published last -/

/-- Not a read of port `i`. -/
def NotReadOf (i : Port) (o : Origin) : Prop := ¬ (o.port = i ∧ opcode o.word = 1)

/-- No read of port `i` is on its way, and a zero is published last there. -/
structure ZeroLast (i : Port) (d : Device) : Prop where
  placed : Placed (NotReadOf i) d
  latest : (d.ingress i).pc ≠ .writeHit → d.responces.latest i = 0

variable {d e : Device} {i : Port}

/-- If the only piece in the device is a word in `in_i`, no packet is anywhere. -/
theorem alone (path : d.pathLoad ≤ 1) (word : 0 < (d.ingress i).in_.held) :
    (∀ j, (d.ingress j).pc.load = 0) ∧ d.switch.load = 0 ∧ (∀ k, (d.egress k).load = 0) ∧
      d.responces.load = 0 := by
  have own : (d.ingress i).load ≤ ∑ j, (d.ingress j).load :=
    Finset.single_le_sum (f := fun j => (d.ingress j).load) (fun _ _ => Nat.zero_le _)
      (Finset.mem_univ i)
  have held : (d.ingress i).in_.held + (d.ingress i).pc.load = (d.ingress i).load := rfl
  unfold pathLoad at path
  have egress : ∑ k, (d.egress k).load = 0 := by omega
  refine ⟨fun j => ?_, by omega, fun k => Finset.sum_eq_zero_iff.mp egress k (Finset.mem_univ k),
    by omega⟩
  by_cases same : j = i
  · -- the word of port `i` is the only piece, so its process holds no packet
    subst same
    omega
  · have both : (d.ingress j).load + (d.ingress i).load ≤ ∑ j, (d.ingress j).load :=
      Finset.add_le_sum (f := fun j => (d.ingress j).load) (fun _ _ => Nat.zero_le _)
        (Finset.mem_univ j) (Finset.mem_univ i) same
    have held' : (d.ingress j).in_.held + (d.ingress j).pc.load = (d.ingress j).load := rfl
    omega

private theorem placed_of_alone {G G' : Origin → Prop} (h : Placed G d) (path : d.pathLoad ≤ 1)
    (word : 0 < (d.ingress i).in_.held)
    (past : ∀ k, ∀ x ∈ (d.egress k).writes, G' x.flit.origin) : Placed G' d := by
  obtain ⟨pcs, switch, egress, responces⟩ := alone path word
  have none {α : Type} {f : Fifo α} (zero : f.held = 0) : f.contents = [] := Fifo.held_eq_zero.mp zero
  unfold Switch.load at switch
  have inFifo : ∑ j, (d.switch.inFifo j).held = 0 := by omega
  have stages : ∑ a, ∑ b, (d.switch.outFifoS a b).held = 0 := by omega
  have outFifo : ∑ k, (d.switch.outFifo k).held = 0 := by omega
  refine ⟨fun j f at_ => ?_, fun j f member => ?_, fun a b f member => ?_, fun k f member => ?_,
    fun k f at_ => ?_, fun k f member => ?_, fun k x member => ?_⟩
  · have zero := pcs j
    -- a blocked process would be a piece
    simp [at_, IngressPc.load] at zero
  · rw [none (Finset.sum_eq_zero_iff.mp inFifo j (Finset.mem_univ j))] at member
    cases member
  · have row := Finset.sum_eq_zero_iff.mp stages a (Finset.mem_univ a)
    rw [none (Finset.sum_eq_zero_iff.mp row b (Finset.mem_univ b))] at member
    cases member
  · rw [none (Finset.sum_eq_zero_iff.mp outFifo k (Finset.mem_univ k))] at member
    cases member
  · have zero := egress k
    simp [Egress.load, at_, EgressPc.load] at zero
  · rw [none (Finset.sum_eq_zero_iff.mp responces k (Finset.mem_univ k))] at member
    cases member
  · -- what is in the memories is no piece: the hypothesis speaks for it
    have written := h.writes k x member
    exact ⟨⟨⟨past k x member, written.routed.1.2⟩, written.routed.2⟩, written.op, written.address⟩

/-- The processes that publish or mark for port `i` are two. -/
theorem process_latest (d : Device) {q : Proc} (own : q ≠ .interfaceIn i)
    (publish : q ≠ .entryResponse) : (d.process q).responces.latest i = d.responces.latest i := by
  cases q with
  | entryResponse => exact absurd rfl publish
  | interfaceIn j =>
    have other : i ≠ j := fun same => own (by rw [same])
    simp [Responces.latest, interfaceIn, other]
  | interfaceOut k => simp [Responces.latest, interfaceOut]
  | directMemOut k => simp [directMemOut]
  | entrySw k => rw [process_entrySw]
  | setupfwRule =>
    simp only [process, setupfwRule]
    split <;> rfl
  | executeWriteThread =>
    -- the threads share no state with `entry_response`
    obtain ⟨_, _, _, setup, ingress, direct, same, _⟩ := d.executeWriteThread_frame
    rw [process, same]
  | executeReadThread =>
    obtain ⟨_, _, _, direct, same, _⟩ := d.executeReadThread_frame
    rw [process, same]
  | client | entry k | directentry k => rfl

/-- Apart from `interface_in_i` nothing moves its place or its record. -/
theorem process_record (d : Device) {q : Proc} (own : q ≠ .interfaceIn i) :
    ((d.process q).ingress i).pc = (d.ingress i).pc ∧
      ((d.process q).ingress i).taken = (d.ingress i).taken := by
  by_cases write : q = .executeWriteThread
  · subst write
    obtain ⟨_, fifo, _, _, ingress, _⟩ := d.executeWriteThread_port i
    rw [process, ingress]
    exact ⟨rfl, rfl⟩
  · rw [d.process_ingress own write]
    exact ⟨rfl, rfl⟩

/-- No write in a memory was a read. -/
private theorem written_notReadOf (h : machine.Reachable d) (i k : Port) :
    ∀ x ∈ (d.egress k).writes, NotReadOf i x.flit.origin := by
  intro x member read
  have written := (placed_of_reachable (open_of_reachable h)).writes k x member
  have op := written.op
  rw [written.routed.1.2, Origin.opcode_sent] at op
  exact op read.2

/-- After a step that leaves a denied read as the last one, no read of the port has entered:
it would be the last one, and was not denied. -/
private theorem enters_notReadOf (denied : (e.ingress i).Denied) :
    ∀ j f, e.ingress j = (d.judged j).ingress → d.Enters j f → NotReadOf i f.origin := by
  rintro j f own enters ⟨port, op⟩
  obtain rfl : j = i := (enters.sent (G := fun _ => True) trivial).2.symm.trans port
  obtain ⟨w, rfl, -, taken⟩ := enters
  have op : opcode w = 1 := op
  rw [own, Ingress.denied_of_read taken (by simp [Taken.isRead, op])] at denied
  cases denied

private theorem zeroLast_interfaceIn (reach : machine.Reachable d)
    (inv : (d.ingress i).Denied → ZeroLast i d) (hs : Transition d (d.exec (.interfaceIn i)))
    (denied : ((d.exec (.interfaceIn i)).ingress i).Denied) :
    ZeroLast i (d.exec (.interfaceIn i)) := by
  have entering := enters_notReadOf (d := d) denied
  have own : (d.exec (.interfaceIn i)).ingress i = (d.judged i).ingress := by
    simp [exec, interfaceIn, judged]
  have latest : (d.exec (.interfaceIn i)).responces.latest i =
      (d.judged i).initResponceFifo.contents.getLast?.getD (d.responces.inResponce i).next := by
    simp [Responces.latest, exec, interfaceIn, judged]
  have zero {markers old : List Word} (last : markers = old ++ [0]) (w : Word) :
      markers.getLast?.getD w = 0 := by
    simp [last]
  have marking := IngressStep.marking_run i (portBits i) (d.setup i).fwRange
    (d.responces.responceS i).cur
    ⟨d.ingress i, d.switch.inFifo i, d.responces.initResponceFifo i, false⟩
  change IngressStep.Marking _ (d.judged i) at marking
  rw [own] at denied
  cases marking with
  | kept same fifo was is =>
    -- the denied read is an older one, and no marker was added
    have last := inv (same.mp denied)
    refine ⟨placed_step last.placed hs entering, fun _ => ?_⟩
    rw [latest, fifo]
    exact last.latest was
  | other answered => exact absurd denied answered
  | denied w rest read last =>
    -- the read is denied now: the word was all that the write had in the device
    have held := Fifo.held_of_nbRead read
    have accounted := (accounted_of_reachable reach).write
    have bound : (if d.bus.client = .waitWrite then 1 else 0) ≤ 1 := by split <;> omega
    have placed : Placed (NotReadOf i) d :=
      placed_of_alone (placed_of_reachable (open_of_reachable reach)) (by omega)
        (Nat.lt_of_lt_of_eq (Nat.succ_pos _) held.symm) (fun k => written_notReadOf reach i k)
    refine ⟨placed_step placed hs entering, fun at_ => ?_⟩
    rw [own] at at_
    rw [latest]
    exact zero (last at_) _
  | resumed same last =>
    -- the fifo was full when the read was denied; its zero is added now
    have before := inv (same.mp denied)
    refine ⟨placed_step before.placed hs entering, fun at_ => ?_⟩
    rw [own] at at_
    rw [latest]
    exact zero (last at_) _
  | forwarding f pc same =>
    -- the packet it is blocked with would be a read of the port
    obtain ⟨⟨other, -⟩, port, op⟩ := (inv (same.mp denied)).placed.forwarding i f pc
    exact absurd ⟨port, op⟩ other

theorem zeroLast_step {a : Action} (reach : machine.Reachable d)
    (inv : (d.ingress i).Denied → ZeroLast i d) (hs : Move d a e)
    (denied : (e.ingress i).Denied) : ZeroLast i e := by
  have transition := transition_of_move hs
  have entering := enters_notReadOf (d := d) denied
  have still : (e.ingress i).pc = (d.ingress i).pc → (e.ingress i).taken = (d.ingress i).taken →
      ((d.ingress i).Denied → ZeroLast i d → e.responces.latest i = d.responces.latest i) →
      ZeroLast i e := by
    intro pc taken latest
    -- the case of every process that is not `interface_in_i`
    have was := (Ingress.denied_of_taken taken).mp denied
    have last := inv was
    refine ⟨placed_step last.placed transition entering, fun at_ => ?_⟩
    rw [latest was last]
    exact last.latest (pc ▸ at_)
  cases hs with
  | request t => exact still rfl rfl fun _ _ => rfl
  | edge => exact still rfl rfl fun _ _ => rfl
  | delta => exact still rfl rfl fun _ _ => by simp [Responces.latest, update]
  | run q =>
    by_cases own : q = .interfaceIn i
    · subst own
      exact zeroLast_interfaceIn reach inv transition denied
    obtain ⟨pc, taken⟩ := d.process_record own
    refine still pc taken fun _ last => ?_
    by_cases publish : q = .entryResponse
    · subst publish
      -- an answer to the port would answer a read of it that is on its way
      refine d.responces.run_latest i fun n f member port => ?_
      obtain ⟨other, dest, op⟩ := last.placed.responceFifo n f member
      rw [dest, portOf_portBits] at port
      exact other ⟨port, op⟩
    · exact d.process_latest own publish

/-- After a denied read the register of its port is on its way to zero, or there. -/
theorem zeroLast_of_reachable (h : machine.Reachable d) (denied : (d.ingress i).Denied) :
    ZeroLast i d := by
  refine (h.invariant (I := fun d => machine.Reachable d ∧ ((d.ingress i).Denied → ZeroLast i d))
    ⟨machine.reachable_init, fun denied => ?_⟩ ?_).2 denied
  · simp [machine, Device.new, Ingress.new, Ingress.Denied, Ingress.lastRead] at denied
  · rintro d a e ⟨reach, inv⟩ hs
    exact ⟨reach.step hs, zeroLast_step reach inv (move_of_step hs)⟩

/-! ### The next read -/

/-- `entry_response` has taken every marker of the port, and the registers show what it has
published there. -/
def Published (i : Port) (d : Device) : Prop :=
  (d.responces.initResponceFifo i).contents = [] ∧
    (d.responces.inResponce i).cur = (d.responces.inResponce i).next

instance (i : Port) (d : Device) : Decidable (Published i d) := by
  unfold Published
  infer_instance

/-- How far the initiator's read `t` of `D_R_P_i` has come, when `log` had returned before. -/
inductive Reading (t : Transaction) (log : List Transaction) (i : Port) (d : Device) : Prop
  | asked (client : d.bus.client = .waitRead) (thread : d.bus.readThread = .notified)
      (address : d.bus.mReadAddress = dRP i) (trans : d.bus.trans = t)
      (returned : d.bus.returned = log) (denied : (d.ingress i).Denied)
  | answered (client : d.bus.client = .notified) (value : d.bus.mRegisterRead = 0)
      (trans : d.bus.trans = t) (returned : d.bus.returned = log)
  | back (more : List Transaction)
      (returned : d.bus.returned = log ++ { t with data := 0 } :: more)

theorem returned_of_move {a : Action} (h : Move d a e) :
    ∃ more, e.bus.returned = d.bus.returned ++ more := by
  cases h with
  | delta | edge => exact ⟨[], (List.append_nil _).symm⟩
  | request t =>
    simp only [request, Bus.request]
    split
    · split
      · exact ⟨[], by simp only [Bus.notifyRead]; split <;> simp⟩
      · exact ⟨[], by simp only [Bus.notifyWrite]; split <;> simp⟩
      · exact ⟨[t], rfl⟩
    · exact ⟨[], (List.append_nil _).symm⟩
  | run q =>
    rcases clocked_or_thread q with inside | rfl | rfl | rfl
    · obtain ⟨notify, pending, bus⟩ := d.process_signal inside
      obtain ⟨c, r, frame, -⟩ := d.bus.signal_frame notify pending
      exact ⟨[], by simp [exec, bus, frame]⟩
    · exact ⟨_, rfl⟩
    · obtain ⟨_, _, _, _, _, _, same, _⟩ := d.executeWriteThread_frame
      exact ⟨[], by simp [exec, process, same]⟩
    · obtain ⟨_, _, _, _, same, _⟩ := d.executeReadThread_frame
      exact ⟨[], by simp [exec, process, same]⟩

/-- With no piece of a write in the device `interface_in_i` finds no word. -/
private theorem judged_taken (path : d.pathLoad = 0) :
    (d.judged i).ingress.taken = (d.ingress i).taken := by
  cases d.latching_judged i with
  | reset pc fwRead preReadR in_ taken => exact taken
  | latch pc new result => rw [result]
  | stay pc keeps => exact keeps.taken
  | take w rest outcome seen read =>
    have held := Fifo.held_of_nbRead read
    have empty := (ingress_empty path i).1
    omega

theorem directPort_dRP (i : Port) : directPort (dRP i) = none := by
  revert i
  decide

theorem readTarget_dRP (i : Port) : readTarget (dRP i) = .responce i := by
  revert i
  decide

/-- The read thread serves the read: it finds the zero. -/
private theorem read_served (reach : machine.Reachable d) (thread : d.bus.readThread = .notified)
    (address : d.bus.mReadAddress = dRP i) (denied : (d.ingress i).Denied)
    (published : Published i d) : d.executeReadThread = d.endRead 0 := by
  have path := ((accounted_of_reachable reach).reading (by simp [thread])).2.2
  have quiet : (d.ingress i).pc ≠ .writeHit := by
    intro at_
    -- a process at `writeHit` is a piece, and a read is served in an empty device
    have zero := (ingress_empty path i).2
    simp [at_, IngressPc.load] at zero
  have latest := (zeroLast_of_reachable reach denied).latest quiet
  unfold Responces.latest at latest
  rw [published.1, ← published.2] at latest
  simp only [executeReadThread, thread, decodeRead, address, directPort_dRP, readTarget_dRP,
    readRegister]
  exact congrArg d.endRead latest

theorem reading_step {t : Transaction} {log : List Transaction} {a : Action}
    (call : t.call = .bTransport) (command : t.command = .read) (reach : machine.Reachable d)
    (h : Reading t log i d)
    (published : a = .run .executeReadThread → d.bus.returned = log → Published i d)
    (hs : Move d a e) : Reading t log i e := by
  have accounted := accounted_of_reachable reach
  cases h with
  | back more returned =>
    obtain ⟨next, longer⟩ := returned_of_move hs
    exact .back (more ++ next) (by simp [longer, returned])
  | asked client thread address trans returned denied =>
    obtain ⟨-, writer, path⟩ := accounted.reading (by simp [thread])
    cases hs with
    | request u idle => simp [client] at idle
    | edge => exact .asked client thread address trans returned denied
    | delta =>
      refine .asked ?_ thread address trans returned denied
      simp [update, client]
    | run q runnable =>
      rcases clocked_or_thread q with inside | rfl | rfl | rfl
      · -- a process of the device may wake a thread that waits, and none waits here
        obtain ⟨notify, pending, bus⟩ := d.process_signal inside
        obtain ⟨c, r, frame, woken⟩ := d.bus.signal_frame notify pending
        have client' := d.bus.signal_client notify pending
        rw [frame] at client'
        have stays : c = .waitRead := by simpa [client] using client'
        have thread' : r = .notified := by
          rcases woken with same | ⟨k, was, -⟩
          · exact same.trans thread
          · simp [thread] at was
        have taken : ((d.process q).ingress i).taken = (d.ingress i).taken := by
          by_cases own : q = .interfaceIn i
          · subst own
            have same : (d.process (.interfaceIn i)).ingress i = (d.judged i).ingress := by
              simp [interfaceIn, judged]
            rw [same]
            exact judged_taken path
          · exact (d.process_record own).2
        refine .asked ?_ ?_ ?_ ?_ ?_ ((Ingress.denied_of_taken taken).mpr denied)
        all_goals simp [exec, bus, frame, stays, thread', address, trans, returned]
      · simp [Device.runnable, client] at runnable
      · simp [Device.runnable, writer] at runnable
      · -- the read thread runs: the condition says that the zero is published
        have zero := read_served reach thread address denied (published rfl returned)
        refine .answered ?_ ?_ ?_ ?_
        all_goals simp [exec, process, zero, endRead, Bus.notifyReadEnded, client, trans, returned]
  | answered client value trans returned =>
    obtain ⟨writer, -⟩ := accounted.no_write (by simp [client])
    obtain ⟨reader, -⟩ := accounted.no_read (by simp [client])
    cases hs with
    | request u idle => simp [client] at idle
    | edge => exact .answered client value trans returned
    | delta =>
      refine .answered ?_ value trans returned
      simp [update, client]
    | run q runnable =>
      rcases clocked_or_thread q with inside | rfl | rfl | rfl
      · obtain ⟨notify, pending, bus⟩ := d.process_signal inside
        obtain ⟨c, r, frame, woken⟩ := d.bus.signal_frame notify pending
        have client' := d.bus.signal_client notify pending
        rw [frame] at client'
        have stays : c = .notified := by simpa [client] using client'
        refine .answered ?_ ?_ ?_ ?_
        all_goals simp [exec, bus, frame, stays, value, trans, returned]
      · refine .back [] ?_
        simp [exec, process, Bus.returns, Bus.finish, trans, call, command, value, returned]
      · simp [Device.runnable, writer] at runnable
      · simp [Device.runnable, reader] at runnable

/-- The last read that port `i` took was denied, and the initiator reads `D_R_P_i`. If the
denial has been published when the read is served, a zero comes back. -/
theorem denied_read_returns_zero {s u : Device} {t t' : Transaction} {as : List Action} {i : Port}
    (hs : machine.Reachable s) (denied : (s.ingress i).Denied) (accepted : t.accepted = true)
    (read : t.command = .read ∧ t.call = .bTransport ∧ t.address = dRP i)
    (hr : machine.run s (.request t :: as) = some u)
    (published : machine.Along (fun d a => a = .run .executeReadThread →
      d.bus.returned = s.bus.returned → Published i d) (s.request t) as)
    (returned : u.bus.returned = s.bus.returned ++ [t']) : t' = { t with data := 0 } := by
  obtain ⟨command, call, address⟩ := read
  obtain ⟨d, first, rest⟩ := (machine.run_cons_iff _ _ _ _).mp hr
  have move := move_of_step first
  cases move with
  | request _ idle =>
    have bus := (accounted_of_reachable hs).request_read idle accepted command
    have start : Reading t s.bus.returned i (s.request t) := by
      refine .asked ?_ ?_ ?_ ?_ ?_ denied
      all_goals simp [bus, call, address]
    have done : machine.Reachable u ∧ Reading t s.bus.returned i u := by
      refine Machine.run_invariant_along
        (I := fun d => machine.Reachable d ∧ Reading t s.bus.returned i d) ?_
        ⟨hs.step first, start⟩ published rest
      rintro d a e ⟨reach, reading⟩ condition step
      exact ⟨reach.step step, reading_step call command reach reading condition (move_of_step step)⟩
    cases done.2 with
    | asked _ _ _ _ none => simp [none] at returned
    | answered _ _ _ none => simp [none] at returned
    | back more log =>
      have same : { t with data := 0 } :: more = [t'] :=
        List.append_cancel_left (log.symm.trans returned)
      exact (List.cons.inj same).1.symm

/-- A read of the cell of offset 5 in the first BRAM, and one of offset 6. -/
def readFive : Word := pack 5 1 0 0 0

def readSix : Word := pack 6 1 0 0 0

/-- A read is answered, then all reads are denied, and another read is denied. -/
def deniedRead : List Action :=
  cycle [] ++ cycle [] ++ packetWrite 0 readFive ++ cycle [] ++ cycle [] ++ cycle [] ++ cycle [] ++
    cycle [.client] ++ (scSetupFW (inport 0) denyAll).flatMap setupWrite ++ cycle [] ++ cycle [] ++
    packetWrite 0 readSix ++ cycle [.client]

/-- The initiator's read of `D_R_P_0`, with the data bytes as they are before it. -/
def readAnswer : Transaction := ⟨.bTransport, .read, dRP 0, 0xFFFFFFFF, 4, false⟩

/-- The read is served at once and returns. -/
def thenReturn : List Action := [.run .executeReadThread, .run .client]

theorem denied_read_returns_zero_of_later :
    (after (deniedRead ++ cycle [] ++ (.request readAnswer :: thenReturn))).bus.returned.getLastD
      readAnswer = { readAnswer with data := 0 } :=
  denied_read_returns_zero (s := after (deniedRead ++ cycle []))
    (u := after (deniedRead ++ cycle [] ++ (.request readAnswer :: thenReturn)))
    (reachable_after (by decide +kernel)) (by decide +kernel)
    (by decide) ⟨rfl, rfl, rfl⟩ (run_after (by decide +kernel))
    ⟨fun _ _ => by decide +kernel, fun _ _ => ⟨nofun, fun _ _ => trivial⟩⟩ (by decide +kernel)

/-- The read that follows a denial at once returns the answer of the read before. -/
theorem denied_read_returns_old :
    ¬ ∀ (s u : Device) (t t' : Transaction) (as : List Action) (i : Port),
      machine.Reachable s → (s.ingress i).Denied → t.accepted = true →
      t.command = .read ∧ t.call = .bTransport ∧ t.address = dRP i →
      machine.run s (.request t :: as) = some u →
      u.bus.returned = s.bus.returned ++ [t'] → t' = { t with data := 0 } := by
  intro claim
  have zero := claim (after deniedRead) (after (deniedRead ++ (.request readAnswer :: thenReturn)))
    readAnswer { readAnswer with data := 0x01600005 } thenReturn 0
    (reachable_after (by decide +kernel)) (by decide +kernel) (by decide) ⟨rfl, rfl, rfl⟩
    (run_after (by decide +kernel)) (by decide +kernel)
  exact absurd zero (by decide)

end Device

end ScCosim.Firewall
