import ScCosim.Firewall.Pieces
import ScCosim.Firewall.Reads

/-!
# What the cells should hold

The memory as its one client sees it: the calls that have returned, in order, applied to the
initial cells. A read over the switch is answered with what its cell held when it was sent.
Below it, what the device needs for that: no rule is enabled, and there is room for the
packet of a call.
-/
namespace ScCosim.Firewall

open Kernel Async

/-! ### The cells after a list of calls -/

/-- The cells, and for each port the data that its last read is to bring back. -/
structure Contents where
  cell : Port → Word → Word
  asked : Port → Option (BitVec 16)

/-- What a port shows while the answer of a read is outstanding. -/
def marker : Word := 0x80000000

namespace Contents

def initial : Contents := ⟨fun _ index => index, fun _ => none⟩

/-- The low half of a word goes into a cell. -/
def store (c : Contents) (k : Port) (index v : Word) : Contents :=
  { c with
    cell := Function.update c.cell k (Function.update (c.cell k) index (pack 0 0 0 0 (data v))) }

/-- A packet written to port `i`. -/
def packet (c : Contents) (i : Port) (w : Word) : Contents :=
  if opcode w = 1 then
    { c with
      asked := Function.update c.asked i
        (some (data (c.cell (portOf (dest w)) ((addrOffset w).zeroExtend 32)))) }
  else c.store (portOf (dest w)) ((addrOffset w).zeroExtend 32) w

/-- The effect of a call. -/
def after (c : Contents) (t : Transaction) : Contents :=
  if t.command = .write then
    match directPort t.address with
    | some k => c.store k (t.address.truncate 32 - Device.memBase k) t.data
    | none =>
      match writeTarget t.address with
      | .packet i => c.packet i t.data
      | _ => c
  else c

/-- The value is right for the register of port `n`: the answer, or the marker before it. -/
def Shows (c : Contents) (n : Port) (v : Word) : Prop :=
  v = marker ∨ ∀ x, c.asked n = some x → data v = x

/-- What a read has brought back is right. -/
def Answers (c : Contents) (t : Transaction) : Prop :=
  t.command = .read → t.call = .bTransport →
    (∀ k, directPort t.address = some k →
      t.data = c.cell k (t.address.truncate 32 - Device.memBase k)) ∧
    ∀ i, t.address = dRP i → c.Shows i t.data

/-- The contents after these calls. -/
def ofLog (log : List Transaction) : Contents := log.foldl after initial

/-- Every read has brought back what the calls before it have left. -/
def Right (log : List Transaction) : Prop :=
  ∀ before t later, log = before ++ t :: later → (ofLog before).Answers t

variable {c : Contents} {k i : Port} {t : Transaction} {v w : Word}

theorem after_of_not_write (other : t.command ≠ .write) : c.after t = c := if_neg other

theorem after_of_sends (h : t.Sends i w) : c.after t = c.packet i w := by
  simp [after, h.command, h.above, h.target, h.word]

theorem after_of_reaches {address : Word} (h : t.Reaches k address v) :
    c.after t = c.store k (address - Device.memBase k) v := by
  simp [after, h.command, h.window, h.word, ← h.address]

/-- Storing a value twice is storing it once. -/
theorem store_store (index : Word) : (c.store k index v).store k index v = c.store k index v := by
  simp [store]

theorem packet_of_read (read : opcode w = 1) : (c.packet i w).cell = c.cell ∧
    (c.packet i w).asked =
      Function.update c.asked i
        (some (data (c.cell (portOf (dest w)) ((addrOffset w).zeroExtend 32)))) := by
  simp [packet, read]

theorem packet_of_write (write : opcode w ≠ 1) :
    c.packet i w = c.store (portOf (dest w)) ((addrOffset w).zeroExtend 32) w := if_neg write

@[simp] theorem store_asked (index : Word) : (c.store k index v).asked = c.asked := rfl

@[simp] theorem shows_marker (n : Port) : c.Shows n marker := Or.inl rfl

theorem Shows.congr {c' : Contents} {n : Port} (same : c'.asked n = c.asked n)
    (h : c.Shows n v) : c'.Shows n v := by
  unfold Shows
  rw [same]
  exact h

theorem ofLog_snoc (log : List Transaction) (t : Transaction) :
    ofLog (log ++ [t]) = (ofLog log).after t := by
  simp [ofLog]

theorem right_snoc {log : List Transaction} (h : Right log) (last : (ofLog log).Answers t) :
    Right (log ++ [t]) := by
  intro before u later same
  rcases List.eq_nil_or_concat later with rfl | ⟨rest, s, rfl⟩
  · obtain ⟨rfl, rfl⟩ : log = before ∧ t = u := by simpa using same
    exact last
  · -- the call is one of the older ones
    obtain ⟨older, -⟩ : log = before ++ u :: rest ∧ t = s := by
      have snoc : log ++ [t] = (before ++ u :: rest) ++ [s] := by simpa using same
      simpa using List.append_inj' snoc rfl
    exact h before u rest older

end Contents

/-! ### No rule is enabled -/

namespace Device

variable {d e : Device}

/-- However far the setup registers of a port were written, their rule was disabled. -/
def RulesOff (d : Device) : Prop :=
  ∀ p part, part <+: setupEntries p d.bus.served → (registersAfter p ⟨0, 0, 0⟩ part).enabled = false

/-- A rule that is never enabled was not enabled before. -/
theorem rulesOff_of_transition (h : Transition d e) (off : e.RulesOff) : d.RulesOff := by
  intro p part within
  obtain ⟨more, served, -⟩ := served_of_transition h
  have longer : setupEntries p e.bus.served =
      setupEntries p d.bus.served ++ setupEntries p more := by
    rw [served]
    exact List.filter_append _ _
  exact off p part (within.trans (longer ▸ List.prefix_append _ _))

theorem miss_of_rulesOff (h : openMachine.Reachable d) (off : d.RulesOff) (p : Port) (w : Word) :
    fwHit (d.ingress p).fwRead w = false := by
  obtain ⟨as, hr⟩ := h
  have zero : (⟨0, 0, 0⟩ : Triple).enabled = false := by decide
  have start : Stages (fun t => t.enabled = false) new p := ⟨zero, zero, zero, zero, zero⟩
  have stages : Stages (fun t => t.enabled = false) d p :=
    (judged_of_run zero openMachine.reachable_init start hr (List.nil_append _).symm (off p)).1
  simp [fwHit, stages.latched]

end Device

/-! ### What is published while no rule is enabled -/

/-- What a run of `interface_in` does where no word hits: it writes markers only, and it ends
a call only for a word that finds an answer outstanding or no room. -/
theorem IngressStep.run_missed (i : Port) (source : BitVec 2) (fw : Triple) (responceS : Word)
    (s : IngressStep) (miss : ∀ w, fwHit s.ingress.fwRead w = false)
    (quiet : s.notify = false) (pc : s.ingress.pc ≠ .writeHit) :
    (run i source fw responceS s).ingress.pc ≠ .writeHit ∧
      ((run i source fw responceS s).initResponceFifo = s.initResponceFifo ∨
        (run i source fw responceS s).initResponceFifo = s.initResponceFifo.push marker) ∧
      ((run i source fw responceS s).notify = true → ∃ w rest,
        s.ingress.in_.nbRead = some (w, rest) ∧
          (opcode w = 1 ∧ pending responceS = true ∨ s.inFifo.numFree = 0)) := by
  have send (t : IngressStep) (f : Flit) (quiet : t.notify = false) :
      (t.writeForward f).ingress.pc ≠ .writeHit ∧
        ((t.writeForward f).initResponceFifo = t.initResponceFifo ∨
          (t.writeForward f).initResponceFifo = t.initResponceFifo.push marker) ∧
        (t.writeForward f).notify = false := by
    unfold writeForward
    split
    · exact ⟨by simp [forward], Or.inr rfl, quiet⟩
    · exact ⟨by simp, Or.inl rfl, quiet⟩
  have silent {t : IngressStep} {P : Prop} (quiet : t.notify = false) : t.notify = true → P :=
    fun loud => absurd (quiet.symm.trans loud) (by decide)
  unfold run
  cases at_ : s.ingress.pc with
  | start | init | wait1 => exact ⟨by simp [reset], Or.inl rfl, silent quiet⟩
  | writeHit => exact absurd at_ pc
  | writeForward f =>
    obtain ⟨place, markers, same⟩ := send s f quiet
    exact ⟨place, markers, silent same⟩
  | loop =>
    simp only
    split
    · exact ⟨by simp [latch, at_], Or.inl rfl, silent quiet⟩
    cases read : s.ingress.in_.nbRead with
    | none => exact ⟨by simp [at_], Or.inl rfl, silent quiet⟩
    | some r =>
      obtain ⟨w, rest⟩ := r
      simp only [judge, miss, Bool.false_eq_true, if_false]
      split
      · exact ⟨by simp [take, at_], Or.inl rfl, silent quiet⟩
      split
      next outstanding =>
        exact ⟨by simp [drop], Or.inl rfl, fun _ => ⟨w, rest, rfl, Or.inl ⟨outstanding.2, outstanding.1⟩⟩⟩
      split
      · split
        · obtain ⟨place, markers, same⟩ :=
            send ((s.take rest w .forwarded).count w) (s.flit i source w) quiet
          exact ⟨place, markers, silent same⟩
        · exact ⟨by simp [forward], Or.inl rfl, silent quiet⟩
      next full =>
        exact ⟨by simp [drop], Or.inl rfl, fun _ => ⟨w, rest, rfl, Or.inr (by omega)⟩⟩

namespace Device

variable {d e : Device}

/-- Nothing but markers announces answers, and the two registers of a port agree on them. -/
structure Marked (d : Device) : Prop where
  markers : ∀ n, ∀ v ∈ (d.responces.initResponceFifo n).contents, v = marker
  pc : ∀ i, (d.ingress i).pc ≠ .writeHit
  cur : ∀ n, pending (d.responces.responceS n).cur = true → (d.responces.inResponce n).cur = marker
  next : ∀ n, pending (d.responces.responceS n).next = true →
    (d.responces.inResponce n).next = marker

theorem marked_entryResponse (h : Marked d) : Marked (d.process .entryResponse) := by
  have spec := d.responces.run_spec
  change Marked { d with
    responces := d.responces.run.1
    bus := if d.responces.run.2 then d.bus.notifyWriteEnded else d.bus }
  generalize d.responces.run = t at spec ⊢
  -- the registers of a port are written together
  have published (r : Responces) (n : Port) (v : Word) (right : pending v = true → v = marker)
      (cur : ∀ n, pending (r.responceS n).cur = true → (r.inResponce n).cur = marker)
      (next : ∀ n, pending (r.responceS n).next = true → (r.inResponce n).next = marker) :
      (∀ m, pending ((r.publish n v).responceS m).cur = true →
        ((r.publish n v).inResponce m).cur = marker) ∧
      ∀ m, pending ((r.publish n v).responceS m).next = true →
        ((r.publish n v).inResponce m).next = marker := by
    constructor
    · intro m
      by_cases own : m = n
      · subst own
        simpa [Responces.publish] using cur m
      · simpa [Responces.publish, own] using cur m
    · intro m
      by_cases own : m = n
      · subst own
        simpa [Responces.publish] using right
      · simpa [Responces.publish, own] using next m
  cases spec with
  | reset => exact ⟨h.markers, h.pc, h.cur, fun n => by simp [Responces.reset, pending]⟩
  | rest => exact ⟨h.markers, h.pc, h.cur, h.next⟩
  | marker n v rest read =>
    have front := (Fifo.contents_of_nbRead read).1
    obtain ⟨cur, next⟩ := published { d.responces with
        initResponceFifo := Function.update d.responces.initResponceFifo n rest
        pc := .served n } n v (fun _ => h.markers n v (front ▸ List.mem_cons_self ..)) h.cur h.next
    refine ⟨fun m u member => ?_, h.pc, cur, next⟩
    by_cases own : m = n
    · subst own
      refine h.markers m u (front ▸ List.mem_cons_of_mem v ?_)
      simpa [Responces.publishInit, Responces.publish] using member
    · exact h.markers m u (by simpa [Responces.publishInit, Responces.publish, own] using member)
  | answer n f rest none read =>
    obtain ⟨cur, next⟩ := published { d.responces with
        responceFifo := Function.update d.responces.responceFifo n rest
        pc := .served n } (portOf (dest (Responces.clearPending f.word)))
      (Responces.clearPending f.word) (by simp) h.cur h.next
    exact ⟨h.markers, h.pc, cur, next⟩

/-- Only `entry_response` writes the registers of the ports, and only the `interface_in`
processes the markers. -/
theorem process_responces (d : Device) {q : Proc} (other : q ≠ .entryResponse) :
    ∃ markers answers,
      (d.process q).responces =
        { d.responces with initResponceFifo := markers, responceFifo := answers } ∧
      ((∀ i, q ≠ .interfaceIn i) → markers = d.responces.initResponceFifo) := by
  cases q with
  | entryResponse => exact absurd rfl other
  | interfaceIn j =>
    rw [process_interfaceIn]
    exact ⟨_, _, rfl, fun own => absurd rfl (own j)⟩
  | interfaceOut k => rw [process_interfaceOut]; exact ⟨_, _, rfl, fun _ => rfl⟩
  | directMemOut k => rw [process_directMemOut]; exact ⟨_, _, rfl, fun _ => rfl⟩
  | entrySw k => rw [process_entrySw]; exact ⟨_, _, rfl, fun _ => rfl⟩
  | setupfwRule =>
    simp only [process, setupfwRule]
    split <;> exact ⟨_, _, rfl, fun _ => rfl⟩
  | executeWriteThread =>
    obtain ⟨_, _, _, setup, ingress, direct, same, _⟩ := d.executeWriteThread_frame
    rw [process, same]
    exact ⟨_, _, rfl, fun _ => rfl⟩
  | executeReadThread =>
    obtain ⟨_, _, _, direct, same, _⟩ := d.executeReadThread_frame
    rw [process, same]
    exact ⟨_, _, rfl, fun _ => rfl⟩
  | client | entry k | directentry k => exact ⟨_, _, rfl, fun _ => rfl⟩

theorem marked_step {a : Action} (h : Marked d)
    (miss : ∀ i w, fwHit (d.ingress i).fwRead w = false) (hs : Move d a e) : Marked e := by
  cases hs with
  | request | edge => exact ⟨h.markers, h.pc, h.cur, h.next⟩
  | delta => exact ⟨fun n v member => h.markers n v (by simpa [update] using member), h.pc, h.next, h.next⟩
  | run q =>
    suffices after : Marked (d.process q) from ⟨after.markers, after.pc, after.cur, after.next⟩
    by_cases answers : q = .entryResponse
    · subst answers
      exact marked_entryResponse h
    obtain ⟨fifo, _, responces, same⟩ := d.process_responces answers
    by_cases own : ∃ i, q = .interfaceIn i
    · obtain ⟨i, rfl⟩ := own
      obtain ⟨place, markers, -⟩ := IngressStep.run_missed i (portBits i) (d.setup i).fwRange
        (d.responces.responceS i).cur
        ⟨d.ingress i, d.switch.inFifo i, d.responces.initResponceFifo i, false⟩ (miss i) rfl (h.pc i)
      rw [process_interfaceIn]
      refine ⟨fun n v member => ?_, fun j => ?_, h.cur, h.next⟩
      · by_cases same : n = i
        · subst same
          simp only [interfaceIn, Function.update_self] at member
          -- a marker may have been added
          rcases markers with old | more
          · rw [old] at member
            exact h.markers n v member
          · rw [more, Fifo.push_contents] at member
            rcases List.mem_append.mp member with old | new
            · exact h.markers n v old
            · exact List.mem_singleton.mp new
        · exact h.markers n v (by simpa [interfaceIn, same] using member)
      · by_cases same : j = i
        · subst same
          simpa [interfaceIn] using place
        · simpa [interfaceIn, same] using h.pc j
    · simp only [not_exists] at own
      obtain rfl := same own
      refine ⟨?_, fun i => ?_, ?_, ?_⟩
      · rw [responces]
        exact h.markers
      · rw [(d.process_record (own i)).1]
        exact h.pc i
      · rw [responces]
        exact h.cur
      · rw [responces]
        exact h.next

/-- While no rule has been enabled nothing but markers and answers is published. -/
theorem marked_of_reachable (h : machine.Reachable d) (off : d.RulesOff) : Marked d := by
  refine (h.invariant (I := fun d => machine.Reachable d ∧ (d.RulesOff → Marked d))
    ⟨machine.reachable_init, fun _ => ?_⟩ ?_).2 off
  · refine ⟨fun n v member => ?_, fun i => ?_, fun n => ?_, fun n => ?_⟩
    · simp [machine, Device.new, Responces.new] at member
    · simp [machine, Device.new, Ingress.new]
    · simp [machine, Device.new, Responces.new, Signal.new, pending]
    · simp [machine, Device.new, Responces.new, Signal.new, pending]
  · rintro d a e ⟨reach, marked⟩ hs
    have move := move_of_step hs
    refine ⟨reach.step hs, fun off => ?_⟩
    have before := rulesOff_of_transition (transition_of_move move) off
    exact marked_step (marked before) (fun i => miss_of_rulesOff (open_of_reachable reach) before i) move

/-! ### Room for the packet of a call -/

/-- In one cycle at most one packet is taken from `in_fifo_i`. -/
structure Gauged (d : Device) (i : Port) : Prop where
  size : (d.switch.inFifo i).size = internalFifoSize
  taken : (d.switch.inFifo i).numRead + (if (Spot.inFifo i).reader ∈ d.ready then 1 else 0) ≤ 1
  clean : d.dirty = false → (d.switch.inFifo i).numRead = 0

end Device

/-- A switch takes at most one packet from each input. -/
theorem SwitchStep.run_gauge (s : SwitchStep) (j : Fin 2) :
    (s.run.ins j).size = (s.ins j).size ∧ (s.run.ins j).numRead ≤ (s.ins j).numRead + 1 := by
  cases s.passes_run with
  | still none ins outs => simp [ins]
  | moves i f rest taken read ins outs =>
    rw [ins]
    split
    next own =>
      subst own
      have taken : rest.numRead = (s.ins j).numRead + 1 := by
        unfold Fifo.nbRead at read
        split at read
        · cases read
        · cases read
          rfl
      exact ⟨Fifo.size_of_nbRead read, taken.le⟩
    next other => exact ⟨rfl, Nat.le_succ _⟩

namespace Device

variable {d e : Device}

private theorem gauge_entrySw (d : Device) (k : Fin 4) (i : Port) :
    ((d.process (.entrySw k)).switch.inFifo i).size = (d.switch.inFifo i).size ∧
      ((d.process (.entrySw k)).switch.inFifo i).numRead ≤ (d.switch.inFifo i).numRead +
        (if (Spot.inFifo i).reader = .entrySw k then 1 else 0) := by
  have first (k : Fin 4) (a : Fin 2) (p q i : Port) (apart : p ≠ q) :
      ((d.switch.firstStage k a p q).inFifo i).size = (d.switch.inFifo i).size ∧
        ((d.switch.firstStage k a p q).inFifo i).numRead ≤ (d.switch.inFifo i).numRead +
          (if i = p ∨ i = q then 1 else 0) := by
    have gauge := SwitchStep.run_gauge
      ⟨d.switch.inFifo p, d.switch.inFifo q, d.switch.outFifoS a 0, d.switch.outFifoS a 1,
        d.switch.pc k⟩
    by_cases atQ : i = q
    · subst atQ
      simpa [Switch.firstStage, SwitchStep.ins] using gauge 1
    by_cases atP : i = p
    · subst atP
      simpa [Switch.firstStage, SwitchStep.ins, atQ] using gauge 0
    · simp [Switch.firstStage, atP, atQ]
  fin_cases k
  · have own := first 0 0 0 1 i (by decide)
    fin_cases i <;> exact own
  · have own := first 1 1 2 3 i (by decide)
    fin_cases i <;> exact own
  -- the second stage does not read these FIFOs
  · exact ⟨rfl, Nat.le_add_right ..⟩
  · exact ⟨rfl, Nat.le_add_right ..⟩

/-- A run of a process reads from `in_fifo_i` at most once before the next edge. -/
theorem gauged_run {i : Port} (nodup : d.ready.Nodup) (h : Gauged d i) {q : Proc}
    (runnable : d.runnable q = true) : Gauged (d.exec q) i := by
  have gauge : ((d.exec q).switch.inFifo i).size = (d.switch.inFifo i).size ∧
      ((d.exec q).switch.inFifo i).numRead ≤ (d.switch.inFifo i).numRead +
        (if (Spot.inFifo i).reader = q then 1 else 0) := by
    change ((d.process q).switch.inFifo i).size = _ ∧ ((d.process q).switch.inFifo i).numRead ≤ _
    by_cases switch : ∃ k, q = .entrySw k
    · obtain ⟨k, rfl⟩ := switch
      exact d.gauge_entrySw k i
    by_cases ingress : ∃ j, q = .interfaceIn j
    · obtain ⟨j, rfl⟩ := ingress
      rw [process_interfaceIn]
      by_cases same : i = j
      · subst same
        simp only [interfaceIn, Function.update_self]
        rcases IngressStep.run_inFifo i (portBits i) (d.setup i).fwRange (d.responces.responceS i).cur
          ⟨d.ingress i, d.switch.inFifo i, d.responces.initResponceFifo i, false⟩ with kept | ⟨f, push, -⟩
        · rw [kept]
          exact ⟨rfl, Nat.le_add_right ..⟩
        · rw [push]
          exact ⟨rfl, Nat.le_add_right ..⟩
      · simp [interfaceIn, same]
    by_cases egress : ∃ k, q = .interfaceOut k
    · obtain ⟨k, rfl⟩ := egress
      rw [process_interfaceOut]
      exact ⟨rfl, Nat.le_add_right ..⟩
    · simp only [not_exists] at switch ingress egress
      rw [d.process_switch ingress egress switch]
      exact ⟨rfl, Nat.le_add_right ..⟩
  have taken := h.taken
  refine ⟨gauge.1.trans h.size, ?_, by simp [exec]⟩
  by_cases own : (Spot.inFifo i).reader = q
  · -- the reader was ready, and is not any more
    subst own
    have gone : (Spot.inFifo i).reader ∉ (d.exec (Spot.inFifo i).reader).ready := nodup.not_mem_erase
    have was : (Spot.inFifo i).reader ∈ d.ready := by
      revert runnable
      unfold Spot.reader
      dsimp only
      split <;> simp [Device.runnable, blocked]
    rw [if_neg gone]
    rw [if_pos was] at taken
    have reads := gauge.2
    rw [if_pos rfl] at reads
    omega
  · have same : (Spot.inFifo i).reader ∈ (d.exec q).ready ↔ (Spot.inFifo i).reader ∈ d.ready :=
      List.mem_erase_of_ne own
    simp only [same]
    have reads := gauge.2
    rw [if_neg own] at reads
    omega

theorem gauged_of_reachable (h : machine.Reachable d) (i : Port) : Gauged d i := by
  refine (h.invariant (I := fun d => d.ready.Nodup ∧ Gauged d i) ⟨List.nodup_nil, ?_⟩ ?_).2
  · exact ⟨rfl, by simp [machine, Device.new, Switch.new, Fifo.new], fun _ => rfl⟩
  · rintro d a e ⟨nodup, gauged⟩ hs
    have move := move_of_step hs
    have bound (p : Prop) [Decidable p] : 0 + (if p then 1 else 0) ≤ 1 := by split <;> simp
    refine ⟨nodup_step nodup (transition_of_move move), ?_⟩
    cases move with
    | run q runnable => exact gauged_run nodup gauged runnable
    | request => exact ⟨gauged.size, gauged.taken, by simp [request]⟩
    | delta => exact ⟨gauged.size, bound _, fun _ => rfl⟩
    | edge _ clean =>
      refine ⟨gauged.size, ?_, gauged.clean⟩
      have none : (d.edge.switch.inFifo i).numRead = 0 := gauged.clean clean
      rw [none]
      exact bound _

/-- A word that is the only piece in the device finds room in the switch. -/
theorem room_of_word (h : machine.Reachable d) {i : Port}
    (word : 0 < (d.ingress i).in_.held) : (d.switch.inFifo i).numFree ≠ 0 := by
  have accounted := (accounted_of_reachable h).write
  have path : d.pathLoad ≤ 1 := by
    have bound : (if d.bus.client = .waitWrite then 1 else 0) ≤ 1 := by split <;> omega
    omega
  have switch : d.switch.load = 0 := (alone path word).2.1
  have inFifo : ∑ j, (d.switch.inFifo j).held = 0 := by unfold Switch.load at switch; omega
  have empty := Finset.sum_eq_zero_iff.mp inFifo i (Finset.mem_univ i)
  rw [Fifo.held_eq_zero, Fifo.contents, List.append_eq_nil_iff] at empty
  have gauged := gauged_of_reachable h i
  have taken := gauged.taken
  simp only [Fifo.numFree, empty.1, empty.2, gauged.size, internalFifoSize, List.length_nil]
  omega

end Device

end ScCosim.Firewall
