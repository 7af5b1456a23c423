import ScCosim.Firewall.Denial
import ScCosim.Firewall.WriteEnds

/-!
# What a read returns

A read returns what its address held when it was requested: a cell of a memory, a register
as the signals showed it, or, at an address without either, what `m_register_read` was left
with by the read before. Nothing on the way changes it, since nothing else is in the device.
-/
namespace ScCosim.Firewall

open Kernel Async

/-- The address of a cell or of a register that can be read. -/
def Mapped (address : BitVec 64) : Prop :=
  directPort address ≠ none ∨ readTarget address ≠ .unknown

instance (address : BitVec 64) : Decidable (Mapped address) := by
  unfold Mapped
  infer_instance

/-- The data bytes left in a call that ends with `v` in the read register. -/
def Transaction.answered (t : Transaction) (v : Word) : Transaction :=
  if t.command = .read ∧ t.call = .bTransport then { t with data := v } else t

namespace Device

/-- What a read finds at an address. -/
def content (d : Device) (address : BitVec 64) : Word :=
  match directPort address with
  | some k => d.mem k (address.truncate 32 - memBase k)
  | none => d.readRegister (readTarget address)

end Device

/-! ### The registers show the same until the next update -/

/-- The signals of the counters show the same. -/
structure Ingress.SameShown (g g' : Ingress) : Prop where
  total : g'.total.cur = g.total.cur
  droped : g'.droped.cur = g.droped.cur
  hits : g'.fwRuleHitCounter.cur = g.fwRuleHitCounter.cur

theorem IngressStep.run_shown (i : Port) (source : BitVec 2) (fw : Triple) (responceS : Word)
    (s : IngressStep) : s.ingress.SameShown (run i source fw responceS s).ingress := by
  have hit (t : IngressStep) : t.ingress.SameShown t.writeHit.ingress := by
    unfold writeHit
    split <;> exact ⟨rfl, rfl, rfl⟩
  have forward (t : IngressStep) (f : Flit) :
      t.ingress.SameShown (t.writeForward f).ingress := by
    unfold writeForward
    split <;> exact ⟨rfl, rfl, rfl⟩
  have spec := run_spec i source fw responceS s
  generalize run i source fw responceS s = t at spec ⊢
  cases spec with
  | reset | init | latch | idle | repeated | hit | drop | forward | wait1 => exact ⟨rfl, rfl, rfl⟩
  | hitRead w rest =>
    obtain ⟨total, droped, hits⟩ := hit ((s.take rest w .hit).count w)
    exact ⟨total, droped, hits⟩
  | forwardRead w rest =>
    obtain ⟨total, droped, hits⟩ :=
      forward ((s.take rest w .forwarded).count w) (s.flit i source w)
    exact ⟨total, droped, hits⟩
  | resumeHit => exact hit s
  | resumeForward f => exact forward s f

theorem Responces.run_shown (r : Responces) (n : Port) :
    (r.run.1.inResponce n).cur = (r.inResponce n).cur := by
  have publish (t : Responces) (k : Port) (v : Word) :
      ((t.publish k v).inResponce n).cur = (t.inResponce n).cur := by
    by_cases own : n = k
    · subst own
      simp [Responces.publish]
    · simp [Responces.publish, own]
  have spec := r.run_spec
  generalize r.run = t at spec ⊢
  cases spec with
  | reset | rest => rfl
  | marker k v rest => exact publish _ k v
  | answer k f rest => exact publish _ _ _

namespace Device

variable {d e : Device} {k : Port} {v : Word}

theorem readRegister_process (d : Device) {q : Proc} (inside : q ∈ clocked) (r : ReadTarget) :
    (d.process q).readRegister r = d.readRegister r := by
  have ingress (i : Port) : (d.ingress i).SameShown ((d.process q).ingress i) := by
    by_cases own : q = .interfaceIn i
    · subst own
      rw [process_interfaceIn]
      simpa [interfaceIn] using IngressStep.run_shown i (portBits i) (d.setup i).fwRange
        (d.responces.responceS i).cur
        ⟨d.ingress i, d.switch.inFifo i, d.responces.initResponceFifo i, false⟩
    · have write : q ≠ .executeWriteThread := by
        rintro rfl
        simp [clocked] at inside
      rw [d.process_ingress own write]
      exact ⟨rfl, rfl, rfl⟩
  cases r with
  | total i => exact (ingress i).total
  | droped i => exact (ingress i).droped
  | hits i => exact (ingress i).hits
  | unknown =>
    -- a clocked process does not touch `m_register_read`
    obtain ⟨notify, pending, bus⟩ := d.process_signal inside
    obtain ⟨c, thread, frame, -⟩ := d.bus.signal_frame notify pending
    simp [readRegister, bus, frame]
  | responce i =>
    cases q with
    | client | executeWriteThread | executeReadThread => simp [clocked] at inside
    | entryResponse => exact d.responces.run_shown i
    | interfaceIn j => rw [process_interfaceIn]; rfl
    | interfaceOut j => rw [process_interfaceOut]; rfl
    | directMemOut j => rw [process_directMemOut]; rfl
    | entrySw j => rw [process_entrySw]; rfl
    | setupfwRule =>
      simp only [process, setupfwRule]
      split <;> rfl
    | entry j | directentry j => rfl

/-! ### The memories do not change during a read -/

theorem mem_run_of_empty (base : Word) (s : EgressStep) (empty : s.outFifo.held = 0) :
    (EgressStep.run base s).mem = s.mem := by
  have answer (t : EgressStep) (f : Flit) : (t.writeResponce f).mem = t.mem := by
    rcases t.writeResponce_spec f with room | full
    · rw [room]
    · rw [full]
  have spec := EgressStep.run_spec base s
  generalize EgressStep.run base s = t at spec ⊢
  cases spec with
  | start | init | rest | lower => rfl
  | resume f => exact answer s f
  -- there is no packet to be read
  | read f rest cell pc free read | write f rest pc free read =>
    have held := Fifo.held_of_nbRead read
    omega

/-- With no piece of a write in the device no memory is written. -/
theorem mem_process (path : d.pathLoad = 0) {q : Proc} (inside : q ∈ clocked) :
    (d.process q).mem = d.mem := by
  cases q with
  | client | executeWriteThread | executeReadThread => simp [clocked] at inside
  | interfaceOut j =>
    have switch : ∑ i, (d.switch.outFifo i).held = 0 := by
      unfold pathLoad Switch.load at path
      omega
    have empty := Finset.sum_eq_zero_iff.mp switch j (Finset.mem_univ j)
    rw [process_interfaceOut]
    simp only [interfaceOut]
    rw [mem_run_of_empty _ _ empty]
    exact Function.update_eq_self j d.mem
  | directMemOut j =>
    have writes : ∑ i, (d.direct i).writeLoad = 0 := by
      unfold pathLoad at path
      omega
    have own := Finset.sum_eq_zero_iff.mp writes j (Finset.mem_univ j)
    rw [process_directMemOut]
    simp only [directMemOut]
    suffices same : (DirectStep.run (memBase j) ⟨d.direct j, d.mem j, false, false⟩).mem = d.mem j by
      rw [same]
      exact Function.update_eq_self j d.mem
    have answer (t : DirectStep) (u : Word) : (t.writeResponce u).mem = t.mem := by
      rcases t.writeResponce_spec u with room | full
      · rw [room]
      · rw [full]
    have spec := DirectStep.run_spec (memBase j) ⟨d.direct j, d.mem j, false, false⟩
    generalize DirectStep.run (memBase j) ⟨d.direct j, d.mem j, false, false⟩ = t at spec ⊢
    cases spec with
    | start | init | rest | lower => rfl
    | resume u => exact answer _ u
    | access u rest pc free read =>
      -- what is in the FIFO is the request of a read
      have held := Fifo.held_of_nbRead read
      have out : (d.direct j).outRead = true := by
        by_contra write
        rw [Direct.writeLoad, if_neg write] at own
        dsimp only at held
        omega
      simp only [DirectStep.access, out, if_true]
      exact answer _ _
  | interfaceIn j => rw [process_interfaceIn]; rfl
  | entrySw j => rw [process_entrySw]
  | setupfwRule =>
    simp only [process, setupfwRule]
    split <;> rfl
  | entryResponse | entry j | directentry j => rfl

theorem content_process (path : d.pathLoad = 0) {q : Proc} (inside : q ∈ clocked)
    (address : BitVec 64) : (d.process q).content address = d.content address := by
  unfold content
  split
  · rw [mem_process path inside]
  · exact d.readRegister_process inside _

end Device

/-! ### A read in the direct path -/

/-- The request of a read at a direct port, or its answer, which is `v`. -/
structure Direct.Fetches (base v : Word) (mem : Word → Word) (g : Direct) : Prop where
  outRead : g.outRead = true
  cell : mem (g.outAddress - base) = v
  blocked : ∀ u, g.pc = .writeResponce u → u = v
  answer : ∀ u ∈ g.dirMemResponceFifo.contents, u = v

theorem DirectStep.run_fetches {base v : Word} {s : DirectStep}
    (h : s.direct.Fetches base v s.mem) :
    (run base s).direct.Fetches base v (run base s).mem := by
  have respond (t : DirectStep) (h : t.direct.Fetches base v t.mem) :
      (t.writeResponce v).direct.Fetches base v (t.writeResponce v).mem := by
    rcases t.writeResponce_spec v with room | full
    · rw [room]
      refine ⟨h.outRead, h.cell, by simp, ?_⟩
      simp only [Fifo.push_contents, List.mem_append, List.mem_singleton]
      rintro u (old | rfl)
      · exact h.answer u old
      · rfl
    · rw [full]
      exact ⟨h.outRead, h.cell, by simp, h.answer⟩
  have spec := run_spec base s
  generalize run base s = t at spec ⊢
  cases spec with
  | start pc | init pc => exact ⟨h.outRead, h.cell, by simp, h.answer⟩
  | rest pc => exact h
  | lower pc => exact ⟨h.outRead, h.cell, h.blocked, h.answer⟩
  | access u rest pc free read =>
    -- the request becomes the answer: the cell's content
    simp only [access, h.outRead, if_true, h.cell]
    exact respond _ ⟨rfl, h.cell, h.blocked, h.answer⟩
  | resume u pc =>
    obtain rfl := h.blocked u pc
    exact respond _ h

namespace Device

variable {d e : Device} {k : Port} {v : Word}

/-- The direct port that the read thread is busy with. -/
def readPort (d : Device) : Option Port :=
  match d.bus.readThread with
  | .writeDirect k _ | .pending k | .responce k => some k
  | .wait | .notified => none

def Fetches (k : Port) (v : Word) (d : Device) : Prop :=
  (d.direct k).Fetches (memBase k) v (d.mem k)

theorem fetches_process (path : d.pathLoad = 0) {q : Proc} (inside : q ∈ clocked)
    (h : Fetches k v d) : Fetches k v (d.process q) := by
  unfold Fetches
  by_cases out : q = .directMemOut k
  · subst out
    have mem : (d.process (.directMemOut k)).mem k =
        (DirectStep.run (memBase k) ⟨d.direct k, d.mem k, false, false⟩).mem := by
      rw [process_directMemOut]
      simp [directMemOut]
    rw [directMemOut_direct, mem]
    exact DirectStep.run_fetches h
  rw [mem_process path inside]
  by_cases entry : q = .directentry k
  · subst entry
    rw [directentry_direct]
    exact ⟨h.outRead, h.cell, h.blocked, h.answer⟩
  · rw [process_direct inside out entry]
    exact h

/-- A request that finds the port empty. -/
theorem fetches_readDirect (read : d.readLoad = 0) (out : (d.direct k).outRead = true)
    (cell : d.mem k ((d.direct k).outAddress - memBase k) = v) (u : Word) :
    Fetches k v (d.readDirect k u) ∧ (d.readDirect k u).readPort = some k := by
  have own := Finset.sum_eq_zero_iff.mp read k (Finset.mem_univ k)
  unfold Direct.readLoad at own
  have pc : ∀ w, (d.direct k).pc ≠ .writeResponce w := by
    intro w at_
    simp [at_, DirectPc.load] at own
  have none : (d.direct k).dirMemResponceFifo.contents = [] := Fifo.held_eq_zero.mp (by omega)
  unfold readDirect
  split
  · refine ⟨⟨?_, ?_, ?_, ?_⟩, rfl⟩
    · simpa using out
    · simpa using cell
    · intro w at_
      exact absurd (by simpa using at_) (pc w)
    · simp [none]
  · refine ⟨⟨out, cell, fun w at_ => absurd at_ (pc w), ?_⟩, rfl⟩
    simp [none]

/-! ### A read step by step -/

/-- How far the initiator's read `t` has come, when `log` had returned before it and `v` is
what its address holds. -/
inductive Fetching (t : Transaction) (log : List Transaction) (v : Word) (d : Device) : Prop
  | asked (client : d.bus.client = .waitRead) (thread : d.bus.readThread = .notified)
      (address : d.bus.mReadAddress = t.address) (content : d.content t.address = v)
      (trans : d.bus.trans = t) (returned : d.bus.returned = log)
  | sent (k : Port) (client : d.bus.client = .waitRead) (port : d.readPort = some k)
      (fetches : Fetches k v d) (trans : d.bus.trans = t) (returned : d.bus.returned = log)
  | ended (client : d.bus.client = .notified) (value : d.bus.mRegisterRead = v)
      (trans : d.bus.trans = t) (returned : d.bus.returned = log)
  | back (more : List Transaction) (returned : d.bus.returned = log ++ t.answered v :: more)

variable {t : Transaction} {log : List Transaction}

/-- The kernel's own part of the state does not matter. -/
private theorem fetching_schedule (h : Fetching t log v d) (ready : List Proc) (dirty : Bool) :
    Fetching t log v { d with ready := ready, dirty := dirty } := by
  cases h with
  | asked client thread address content trans returned =>
    exact .asked client thread address content trans returned
  | sent k client port fetches trans returned => exact .sent k client port fetches trans returned
  | ended client value trans returned => exact .ended client value trans returned
  | back more returned => exact .back more returned

private theorem fetching_endRead (client : d.bus.client = .waitRead) (trans : d.bus.trans = t)
    (returned : d.bus.returned = log) : Fetching t log v (d.endRead v) := by
  refine .ended ?_ ?_ ?_ ?_
  all_goals simp [endRead, Bus.notifyReadEnded, client, trans, returned]

private theorem fetching_readDirect (client : d.bus.client = .waitRead) (read : d.readLoad = 0)
    (out : (d.direct k).outRead = true) (cell : d.mem k ((d.direct k).outAddress - memBase k) = v)
    (trans : d.bus.trans = t) (returned : d.bus.returned = log) (u : Word) :
    Fetching t log v (d.readDirect k u) := by
  obtain ⟨fetches, port⟩ := fetches_readDirect read out cell u
  have bus : ∃ r, (d.readDirect k u).bus = { d.bus with readThread := r } := by
    unfold readDirect
    split <;> exact ⟨_, rfl⟩
  obtain ⟨r, bus⟩ := bus
  refine .sent k ?_ port fetches ?_ ?_
  all_goals simp [bus, client, trans, returned]

/-- A run of the read thread moves the read on. -/
private theorem fetching_executeReadThread (accounted : Accounted d)
    (busy : d.bus.readThread ≠ .wait) (h : Fetching t log v d)
    (waiting : d.bus.client = .waitRead) : Fetching t log v d.executeReadThread := by
  have sent := accounted.sent
  cases h with
  | ended client => simp [client] at waiting
  | back more returned =>
    obtain ⟨_, _, _, _, same, _⟩ := d.executeReadThread_frame
    exact .back more (by rw [same]; exact returned)
  | asked client thread address content trans returned =>
    have read : d.readLoad = 0 := by simpa [thread, ReadPc.sent] using sent
    have path := (accounted.reading busy).2.2
    cases port : directPort t.address with
    | some k =>
      -- a direct read: the request names the cell
      have cell : d.mem k (t.address.truncate 32 - memBase k) = v := by
        simpa only [Device.content, port] using content
      have empty := (direct_empty path read k).1
      have load := (load_setDirect (d := d) k t.address true empty).2
      simp only [executeReadThread, thread, decodeRead, address, port]
      apply fetching_readDirect (d := d.setDirect k t.address true) client (load.trans read)
      · simp [setDirect]
      · simpa [setDirect] using cell
      · exact trans
      · exact returned
    | none =>
      have value : d.readRegister (readTarget t.address) = v := by
        simpa only [Device.content, port] using content
      simp only [executeReadThread, thread, decodeRead, address, port, value]
      exact fetching_endRead client trans returned
  | sent k client port fetches trans returned =>
    unfold executeReadThread
    cases thread : d.bus.readThread with
    | wait => exact absurd thread busy
    | notified => simp [readPort, thread] at port
    | pending j => exact .sent k client port fetches trans returned
    | writeDirect j w =>
      obtain rfl : j = k := by simpa [readPort, thread] using port
      have read : d.readLoad = 0 := by simpa [thread, ReadPc.sent] using sent
      exact fetching_readDirect client read fetches.outRead fetches.cell trans returned w
    | responce j =>
      obtain rfl : j = k := by simpa [readPort, thread] using port
      simp only [readResponce]
      cases fifo : (d.direct j).dirMemResponceFifo.nbRead with
      | none => exact .sent j client port fetches trans returned
      | some r =>
        -- the answer is in the FIFO, and there is no other
        have front := (Fifo.contents_of_nbRead fifo).1
        obtain rfl := fetches.answer r.1 (front ▸ List.mem_cons_self ..)
        exact fetching_endRead client trans returned

theorem fetching_update (quiescent : d.quiescent = true) (h : Fetching t log v d) :
    Fetching t log v d.update := by
  have client : ∀ c, c = .waitRead ∨ c = .notified → d.bus.client = c →
      d.update.bus.client = c := by
    rintro c (rfl | rfl) at_ <;> simp [update, at_]
  cases h with
  | asked _ thread =>
    -- the thread runs before the update
    have rests := List.all_eq_true.mp quiescent .executeReadThread (by decide)
    simp [Device.runnable, thread] at rests
  | sent k at_ port fetches trans returned =>
    refine .sent k (client _ (Or.inl rfl) at_) port ?_ trans returned
    refine ⟨fetches.outRead, fetches.cell, fetches.blocked, ?_⟩
    simpa [update] using fetches.answer
  | ended at_ value trans returned =>
    exact .ended (client _ (Or.inr rfl) at_) value trans returned
  | back more returned => exact .back more returned

/-- A process of the device notifies at most the read thread. -/
theorem fetching_process {q : Proc} (inside : q ∈ clocked) (path : d.pathLoad = 0)
    (apart : d.bus.client ≠ .waitWrite) (h : Fetching t log v d) :
    Fetching t log v (d.process q) := by
  obtain ⟨notify, pending, bus⟩ := d.process_signal inside
  obtain ⟨c, r, frame, woken⟩ := d.bus.signal_frame notify pending
  have client' := d.bus.signal_client notify pending
  rw [frame] at client'
  have stays : c = d.bus.client := by simpa [apart] using client'
  rw [frame, stays] at bus
  cases h with
  | asked client thread address content trans returned =>
    refine .asked ?_ ?_ ?_ ((content_process path inside _).trans content) ?_ ?_
    · rw [bus]
      exact client
    · rw [bus]
      rcases woken with same | ⟨k, was, -⟩
      · exact same.trans thread
      · simp [thread] at was
    all_goals rw [bus]; assumption
  | sent k client port fetches trans returned =>
    refine .sent k ?_ ?_ (fetches_process path inside fetches) ?_ ?_
    · rw [bus]
      exact client
    · rw [← port]
      unfold readPort
      rw [bus]
      rcases woken with same | ⟨j, was, now⟩
      · simp only [same]
      · simp only [was, now]
    all_goals rw [bus]; assumption
  | ended client value trans returned =>
    refine .ended ?_ ?_ ?_ ?_
    all_goals rw [bus]; assumption
  | back more returned =>
    refine .back more ?_
    rw [bus]
    exact returned

theorem fetching_step {a : Action} (reach : machine.Reachable d) (h : Fetching t log v d)
    (hs : Move d a e) : Fetching t log v e := by
  have accounted := accounted_of_reachable reach
  by_cases finished : ∃ more, d.bus.returned = log ++ t.answered v :: more
  · obtain ⟨more, returned⟩ := finished
    obtain ⟨next, longer⟩ := returned_of_move hs
    exact .back (more ++ next) (by simp [longer, returned])
  -- until it is back, the initiator waits for the read, or has been notified
  have waits : d.bus.client = .waitRead ∨ d.bus.client = .notified := by
    cases h with
    | asked client | sent k client => exact Or.inl client
    | ended client => exact Or.inr client
    | back more returned => exact absurd ⟨more, returned⟩ finished
  have apart : d.bus.client ≠ .waitWrite := by rcases waits with at_ | at_ <;> simp [at_]
  obtain ⟨writer, path⟩ := accounted.no_write apart
  cases hs with
  | request u idle => rcases waits with at_ | at_ <;> simp [at_] at idle
  | edge => exact fetching_schedule h _ d.dirty
  | delta quiescent => exact fetching_update quiescent h
  | run q runnable =>
    suffices after : Fetching t log v (d.process q) from fetching_schedule after _ true
    rcases clocked_or_thread q with inside | rfl | rfl | rfl
    · exact fetching_process inside path apart h
    · have notified : d.bus.client = .notified := by simpa [Device.runnable] using runnable
      cases h with
      | asked client | sent k client => simp [client] at notified
      | back more returned => exact absurd ⟨more, returned⟩ finished
      | ended client value trans returned =>
        refine .back [] ?_
        simp [process, Bus.returns, Bus.finish, Transaction.answered, trans, value, returned]
    · simp [Device.runnable, writer] at runnable
    · have busy : d.bus.readThread ≠ .wait := by
        intro rests
        simp [Device.runnable, rests] at runnable
      exact fetching_executeReadThread accounted busy h (accounted.read busy)

/-- The call as the initiator holds it while it waits: a debug read has its bytes already. -/
theorem fetching_request {s : Device} (hs : machine.Reachable s) (idle : s.bus.client = .idle)
    (accepted : t.accepted = true) (read : t.command = .read) :
    Fetching (s.request t).bus.trans s.bus.returned (s.content t.address) (s.request t) := by
  have bus := (accounted_of_reachable hs).request_read idle accepted read
  have address : (s.request t).bus.trans.address = t.address := by
    rw [bus]
    dsimp only
    split <;> rfl
  have same : (s.request t).content t.address = s.content t.address := by
    unfold content
    split
    · rfl
    · unfold readRegister
      rw [bus]
      rfl
  refine .asked ?_ ?_ ?_ (address ▸ same) rfl ?_
  · rw [bus]
  · rw [bus]
  · rw [address, bus]
  · rw [bus]

/-- An accepted read leaves in its payload what its address held when it was requested; a
debug read leaves what the read register held then. -/
theorem read_returns {s u : Device} {t' : Transaction} {as : List Action}
    (hs : machine.Reachable s) (accepted : t.accepted = true) (read : t.command = .read)
    (hr : machine.run s (.request t :: as) = some u)
    (returned : u.bus.returned = s.bus.returned ++ [t']) :
    t' = { t with
      data := if t.call = .bTransport then s.content t.address else s.bus.mRegisterRead } := by
  obtain ⟨d, first, rest⟩ := (machine.run_cons_iff _ _ _ _).mp hr
  cases move_of_step first with
  | request _ idle =>
    have start := fetching_request hs idle accepted read
    have done : machine.Reachable u ∧
        Fetching (s.request t).bus.trans s.bus.returned (s.content t.address) u := by
      refine Machine.run_invariant (I := fun d => machine.Reachable d ∧
        Fetching (s.request t).bus.trans s.bus.returned (s.content t.address) d) ?_
        ⟨hs.step first, start⟩ rest
      rintro d a e ⟨reach, fetching⟩ step
      exact ⟨reach.step step, fetching_step reach fetching (move_of_step step)⟩
    have held : (s.request t).bus.trans =
        if t.call = .transportDbg then { t with data := s.bus.mRegisterRead } else t := by
      rw [(accounted_of_reachable hs).request_read idle accepted read]
    cases done.2 with
    | asked _ _ _ _ _ none => simp [none] at returned
    | sent _ _ _ _ _ none => simp [none] at returned
    | ended _ _ _ none => simp [none] at returned
    | back more log =>
      have same : (s.request t).bus.trans.answered (s.content t.address) :: more = [t'] :=
        List.append_cancel_left (log.symm.trans returned)
      rw [← (List.cons.inj same).1, held]
      cases call : t.call with
      | bTransport => simp [Transaction.answered, read, call]
      | transportDbg => simp [Transaction.answered]

/-! ### A register is read at once -/

/-- The state after a read of a register, before the next update. -/
def afterRead (s : Device) (t : Transaction) : Device :=
  { s with
    bus := { s.bus with
      client := .delay
      trans := t.answered (s.readRegister (readTarget t.address))
      mReadAddress := t.address
      mRegisterRead := s.readRegister (readTarget t.address)
      returned := s.bus.returned ++ [t.answered (s.readRegister (readTarget t.address))] }
    ready := (s.ready.erase .executeReadThread).erase .client
    dirty := true }

/-- Outside the direct windows the read thread answers without waiting. -/
theorem run_afterRead {s : Device} (hs : machine.Reachable s) (idle : s.bus.client = .idle)
    (accepted : t.accepted = true) (read : t.command = .read ∧ t.call = .bTransport)
    (above : directPort t.address = none) :
    machine.run s [.request t, .run .executeReadThread, .run .client] = some (s.afterRead t) := by
  have reader := ((accounted_of_reachable hs).no_read (by simp [idle])).1
  let d := s.request t
  have bus : d.bus =
      { s.bus with
        client := .waitRead
        trans := t
        mReadAddress := t.address
        readThread := .notified } := by
    have debug : t.call ≠ .transportDbg := by simp [read.2]
    exact ((accounted_of_reachable hs).request_read idle accepted read.1).trans (by rw [if_neg debug])
  have asked : machine.step s (.request t) = some d :=
    step_iff.mpr ⟨by simp [idle], .request t idle⟩
  have served : machine.step d (.run .executeReadThread) = some (d.exec .executeReadThread) := by
    refine step_iff.mpr ⟨by simp [bus], .run _ ?_⟩
    simp [Device.runnable, bus]
  have value : d.readRegister (readTarget t.address) = s.readRegister (readTarget t.address) := by
    unfold readRegister
    rw [bus]
    rfl
  have thread : d.exec .executeReadThread =
      { s with
        bus := { s.bus with
          client := .notified
          trans := t
          mReadAddress := t.address
          mRegisterRead := s.readRegister (readTarget t.address) }
        ready := s.ready.erase .executeReadThread
        dirty := true } := by
    simp only [exec, process, executeReadThread, decodeRead, bus, above, value, endRead,
      Bus.notifyReadEnded, ← reader]
    rfl
  have back : machine.step (d.exec .executeReadThread) (.run .client) =
      some ((d.exec .executeReadThread).exec .client) := by
    refine step_iff.mpr ⟨by simp [thread], .run _ ?_⟩
    simp [Device.runnable, thread]
  have last : (d.exec .executeReadThread).exec .client = s.afterRead t := by
    rw [thread]
    simp [exec, process, Bus.returns, Bus.finish, afterRead, Transaction.answered, read]
  simp only [machine.run_cons, asked, served, back, last, Option.bind_some, machine.run_nil]

/-! ### Two histories -/

/-- Without the records of the past, which no process reads. -/
def forget (d : Device) : Device :=
  { d with
    bus := { d.bus with trans := Bus.new.trans, served := [], returned := [] }
    ingress := fun i => { d.ingress i with taken := [] }
    egress := fun k =>
      { d.egress k with
        handshake := { (d.egress k).handshake with seen := [] }
        writes := [] }
    direct := fun k =>
      { d.direct k with handshake := { (d.direct k).handshake with seen := [] } } }

/-- Equal in everything except `m_register_read` and `m_read_address`. -/
def SameButRead (s₁ s₂ : Device) : Prop :=
  s₂.forget =
    { s₁.forget with
      bus := { s₁.forget.bus with
        mRegisterRead := s₂.bus.mRegisterRead
        mReadAddress := s₂.bus.mReadAddress } }

/-- A read of the address returns the same bytes after any two histories that leave the
device in such states. -/
def ReadsAlike (address : BitVec 64) : Prop :=
  ∀ s₁ s₂, machine.Reachable s₁ → machine.Reachable s₂ → SameButRead s₁ s₂ →
    ∀ v₁ v₂ as₁ as₂ u₁ u₂ t₁ t₂,
      machine.run s₁ (call .read address v₁ :: as₁) = some u₁ →
      machine.run s₂ (call .read address v₂ :: as₂) = some u₂ →
      u₁.bus.returned = s₁.bus.returned ++ [t₁] → u₂.bus.returned = s₂.bus.returned ++ [t₂] →
      t₁.data = t₂.data

theorem content_of_sameButRead {s₁ s₂ : Device} (same : SameButRead s₁ s₂) {address : BitVec 64}
    (mapped : Mapped address) : s₂.content address = s₁.content address := by
  unfold SameButRead at same
  have mem : s₂.mem = s₁.mem := (congrArg Device.mem same :)
  have responces : s₂.responces = s₁.responces := (congrArg Device.responces same :)
  have ingress (i : Port) : (s₁.ingress i).SameShown (s₂.ingress i) := by
    have forgot := congrFun (congrArg Device.ingress same) i
    exact ⟨congrArg (fun g => g.total.cur) forgot, congrArg (fun g => g.droped.cur) forgot,
      congrArg (fun g => g.fwRuleHitCounter.cur) forgot⟩
  unfold content
  split
  next k port => rw [mem]
  next none =>
    have target := mapped.resolve_left (fun some => some none)
    cases register : readTarget address with
    | unknown => exact absurd register target
    | responce i => simp [readRegister, responces]
    | total i => exact (ingress i).total
    | droped i => exact (ingress i).droped
    | hits i => exact (ingress i).hits

/-- A packet is written and acknowledged. -/
def counting : List Action :=
  cycle [] ++ cycle [] ++ packetWrite 0 readFive ++ cycle [] ++ cycle [] ++ cycle [] ++ cycle [] ++
    cycle [.client]

/-- A register is read at once. -/
def registerRead (address : BitVec 64) : List Action :=
  [call .read address 0, .run .executeReadThread, .run .client, .delta]

/-- Two reads of registers leave the device in states that differ in nothing else. -/
theorem sameButRead_of_reads {s u₁ u₂ : Device} (hs : machine.Reachable s)
    (idle : s.bus.client = .idle) {address₁ address₂ : BitVec 64}
    (inside₁ : inWindow address₁ = true) (inside₂ : inWindow address₂ = true)
    (above₁ : directPort address₁ = none) (above₂ : directPort address₂ = none)
    (run₁ : machine.run s (registerRead address₁) = some u₁)
    (run₂ : machine.run s (registerRead address₂) = some u₂) : SameButRead u₁ u₂ := by
  have ends {address : BitVec 64} {u : Device} (inside : inWindow address = true)
      (above : directPort address = none) (run : machine.run s (registerRead address) = some u) :
      u = (s.afterRead ⟨.bTransport, .read, address, 0, 4, false⟩).update := by
    have accepted : Transaction.accepted ⟨.bTransport, .read, address, 0, 4, false⟩ = true := by
      simpa [Transaction.accepted] using inside
    obtain ⟨d, first, last⟩ := (machine.run_append_iff s u [_, _, _] [.delta]).mp run
    rw [call, run_afterRead hs idle accepted ⟨rfl, rfl⟩ above] at first
    cases first
    obtain ⟨e, step, stop⟩ := (machine.run_cons_iff _ _ _ _).mp last
    cases stop
    cases move_of_step step
    rfl
  rw [ends inside₁ above₁ run₁, ends inside₂ above₂ run₂]
  rfl

/-- An address without a register returns what the read before it left behind. -/
private theorem unmapped_read {s : Device} (hs : machine.Reachable s)
    (idle : s.bus.client = .idle) {address : BitVec 64} (inside : inWindow address = true)
    (unmapped : ¬ Mapped address) : ∃ as u t, machine.run s (call .read address 0 :: as) = some u ∧
      u.bus.returned = s.bus.returned ++ [t] ∧ t.data = s.bus.mRegisterRead := by
  unfold Mapped at unmapped
  push Not at unmapped
  obtain ⟨above, unknown⟩ := unmapped
  have accepted : Transaction.accepted ⟨.bTransport, .read, address, 0, 4, false⟩ = true := by
    simpa [Transaction.accepted] using inside
  refine ⟨_, _, _, run_afterRead hs idle accepted ⟨rfl, rfl⟩ above, rfl, ?_⟩
  simp [Transaction.answered, readRegister, unknown]

/-- At such an address the two histories can be told apart. -/
theorem not_readsAlike_of_unmapped {address : BitVec 64} (inside : inWindow address = true)
    (unmapped : ¬ Mapped address) : ¬ ReadsAlike address := by
  intro alike
  -- the histories end with a read of the count of all packets and of the dropped ones
  let total := after (counting ++ registerRead (dTP 0))
  let droped := after (counting ++ registerRead (dDP 0))
  have reach₁ : machine.Reachable total := reachable_after (by decide +kernel)
  have reach₂ : machine.Reachable droped := reachable_after (by decide +kernel)
  have same : SameButRead total droped :=
    sameButRead_of_reads (s := after counting) (reachable_after (by decide +kernel))
      (by decide +kernel) (by decide) (by decide) (by decide) (by decide)
      (run_after (by decide +kernel)) (run_after (by decide +kernel))
  obtain ⟨as₁, u₁, t₁, run₁, back₁, data₁⟩ :=
    unmapped_read reach₁ (by decide +kernel) inside unmapped
  obtain ⟨as₂, u₂, t₂, run₂, back₂, data₂⟩ :=
    unmapped_read reach₂ (by decide +kernel) inside unmapped
  have equal := alike total droped reach₁ reach₂ same 0 0 as₁ as₂ u₁ u₂ t₁ t₂ run₁ run₂ back₁ back₂
  rw [data₁, data₂] at equal
  exact absurd equal (by decide +kernel)

/-- A read tells nothing of the reads before it exactly at the addresses of cells and
registers. -/
theorem reads_alike_iff {address : BitVec 64} (inside : inWindow address = true) :
    ReadsAlike address ↔ Mapped address := by
  constructor
  · intro alike
    by_contra unmapped
    exact not_readsAlike_of_unmapped inside unmapped alike
  · intro mapped s₁ s₂ reach₁ reach₂ same v₁ v₂ as₁ as₂ u₁ u₂ t₁ t₂ run₁ run₂ back₁ back₂
    have accepted (v : Word) :
        Transaction.accepted ⟨.bTransport, .read, address, v, 4, false⟩ = true := by
      simpa [Transaction.accepted] using inside
    have first := read_returns reach₁ (accepted v₁) rfl run₁ back₁
    have second := read_returns reach₂ (accepted v₂) rfl run₂ back₂
    rw [first, second]
    exact (content_of_sameButRead same mapped).symm

theorem reads_alike_iff_of_total : ReadsAlike (dTP 0) :=
  (reads_alike_iff (by decide)).mpr (by decide)

/-- Between the registers of a port: the address is accepted and no register is there. -/
theorem unmapped_read_discloses :
    ¬ ∀ address : BitVec 64, inWindow address = true → ReadsAlike address := by
  intro claim
  have unmapped : ¬ Mapped 0x80000004 := by decide
  exact not_readsAlike_of_unmapped (by decide) unmapped (claim 0x80000004 (by decide))

end Device

end ScCosim.Firewall
