import Mathlib.Tactic.FinCases
import ScCosim.Firewall.DirectRead

/-!
# Debug transport and normal transport

`transport_dbg` does what `b_transport` does, but a debug read copies the read register out
before it waits for the process that fills it. Issued at the same time under the same
schedule the two calls drive the device through the same states.
-/
namespace ScCosim.Firewall

open Kernel Async

/-- `trans.get_response_status()` of the call made last: set right before it returns. -/
def Bus.responseStatus (b : Bus) : TlmResponse :=
  match b.client with
  | .idle | .delay => .ok
  | .waitWrite | .waitRead | .notified | .thrown => .incomplete

/-- What `transport_dbg` returns. -/
def Transaction.transferred (t : Transaction) : Nat :=
  match t.command with
  | .read | .write => t.dataLength
  | .ignore => 0

/-- The same payload, given to one of the two functions. -/
def Transaction.via (t : Transaction) (c : TransportCall) : Transaction := { t with call := c }

/-! ### The device does not see which call it is -/

/-- With other data in the initiator: the payload it holds, and those it got back. -/
def Bus.withCall (b : Bus) (t : Transaction) (log : List Transaction) : Bus :=
  { b with trans := t, returned := log }

namespace Bus

variable (b : Bus) (t : Transaction) (log : List Transaction)

theorem notifyWriteEnded_withCall :
    (b.withCall t log).notifyWriteEnded = b.notifyWriteEnded.withCall t log := by
  unfold notifyWriteEnded withCall
  split <;> rfl

theorem notifyReadEnded_withCall :
    (b.withCall t log).notifyReadEnded = b.notifyReadEnded.withCall t log := by
  unfold notifyReadEnded withCall
  split <;> rfl

theorem notifyWrite_withCall :
    (b.withCall t log).notifyWrite = b.notifyWrite.withCall t log := by
  unfold notifyWrite withCall
  split <;> rfl

theorem notifyRead_withCall :
    (b.withCall t log).notifyRead = b.notifyRead.withCall t log := by
  unfold notifyRead withCall
  split <;> rfl

theorem notifyReadPending_withCall :
    (b.withCall t log).notifyReadPending = b.notifyReadPending.withCall t log := by
  have thread : (b.withCall t log).readThread = b.readThread := rfl
  unfold notifyReadPending
  rw [thread]
  cases b.readThread <;> rfl

theorem signal_withCall (notify pending : Bool) :
    (b.withCall t log).signal notify pending = (b.signal notify pending).withCall t log := by
  unfold signal
  cases pending <;> cases notify
  · rfl
  · exact b.notifyWriteEnded_withCall t log
  · exact b.notifyReadPending_withCall t log
  · exact (congrArg notifyWriteEnded (b.notifyReadPending_withCall t log)).trans
      (b.notifyReadPending.notifyWriteEnded_withCall t log)

/-- What a request leaves for the call to hold. -/
def payload (b : Bus) (t : Transaction) : Transaction :=
  if t.call = .transportDbg then { t with data := b.mRegisterRead } else t

theorem request_read (accepted : t.accepted = true) (read : t.command = .read) :
    b.request t =
      { b with client := .waitRead, trans := b.payload t, mReadAddress := t.address }.notifyRead := by
  simp [request, accepted, read, payload]

theorem request_write (accepted : t.accepted = true) (write : t.command = .write) :
    b.request t =
      { b with
        client := .waitWrite
        trans := t
        mWriteAddress := t.address
        mRegisterWrite := t.data }.notifyWrite := by
  simp [request, accepted, write]

theorem request_ignore (accepted : t.accepted = true) (ignore : t.command = .ignore) :
    b.request t = b.finish t := by
  simp [request, accepted, ignore]

theorem request_refused (refused : t.accepted = false) :
    b.request t = { b with client := .thrown, trans := t } := by
  simp [request, refused]

theorem notifyRead_returned : b.notifyRead.returned = b.returned := by
  unfold notifyRead
  split <;> rfl

theorem notifyWrite_returned : b.notifyWrite.returned = b.returned := by
  unfold notifyWrite
  split <;> rfl

/-- The two calls do the same up to their wait. -/
theorem request_withCall (u : Transaction) (c : TransportCall)
    (length : log.length = b.returned.length) :
    ∃ x log', (b.withCall t log).request (u.via c) = (b.request u).withCall x log' ∧
      log'.length = (b.request u).returned.length := by
  cases accepted : u.accepted with
  | false =>
    rw [request_refused _ _ accepted, request_refused _ (u.via c) accepted]
    exact ⟨_, log, rfl, length⟩
  | true =>
    cases command : u.command with
    | ignore =>
      rw [request_ignore _ _ accepted command,
        request_ignore _ (u.via c) accepted command]
      exact ⟨_, log ++ [_], rfl, by simp [finish, length]⟩
    | read =>
      rw [request_read _ _ accepted command, request_read _ (u.via c) accepted command]
      have same := notifyRead_withCall
        { b with client := .waitRead, trans := b.payload u, mReadAddress := u.address }
        ((b.withCall t log).payload (u.via c)) log
      exact ⟨_, log, same, by rw [notifyRead_returned]; exact length⟩
    | write =>
      rw [request_write _ _ accepted command, request_write _ (u.via c) accepted command]
      have same := notifyWrite_withCall
        { b with
          client := .waitWrite
          trans := u
          mWriteAddress := u.address
          mRegisterWrite := u.data } (u.via c) log
      exact ⟨_, log, same, by rw [notifyWrite_returned]; exact length⟩

end Bus

namespace Device

def withCall (d : Device) (t : Transaction) (log : List Transaction) : Device :=
  { d with bus := d.bus.withCall t log }

variable {d e s : Device} {t : Transaction} {log : List Transaction}

private theorem executeWriteThread_withCall :
    (d.withCall t log).executeWriteThread = d.executeWriteThread.withCall t log := by
  have writeIn (d : Device) (i : Port) (v : Word) :
      (d.withCall t log).writeIn i v = (d.writeIn i v).withCall t log := by
    by_cases free : 0 < (d.ingress i).in_.numFree
    · simp [Device.writeIn, withCall, Bus.withCall, free]
    · simp [Device.writeIn, withCall, Bus.withCall, free]
  have writeDirect (d : Device) (k : Port) (v : Word) :
      (d.withCall t log).writeDirect k v = (d.writeDirect k v).withCall t log := by
    by_cases free : 0 < (d.direct k).dirMemOutFifo.numFree
    · simp [Device.writeDirect, withCall, Bus.withCall, free]
    · simp [Device.writeDirect, withCall, Bus.withCall, free]
  have setup (i : Port) (register : Setup → Setup) :
      (d.withCall t log).decodeSetup i register = (d.decodeSetup i register).withCall t log := by
    have acknowledged := Bus.notifyWriteEnded_withCall
      { d.bus with
        served := d.bus.served ++ [(d.bus.mWriteAddress, d.bus.mRegisterWrite)]
        writeThread := .wait } t log
    simp only [decodeSetup, writeSetup, logServed, withCall]
    exact congrArg (fun b => { d with
      bus := b
      setup := Function.update d.setup i (register (d.setup i)) }) acknowledged
  have thread : (d.withCall t log).bus.writeThread = d.bus.writeThread := rfl
  unfold executeWriteThread
  rw [thread]
  cases d.bus.writeThread with
  | wait => rfl
  | writeIn i v => exact writeIn d i v
  | writeDirect k v => exact writeDirect d k v
  | notified =>
    have address : (d.withCall t log).bus.mWriteAddress = d.bus.mWriteAddress := rfl
    simp only [decodeWrite]
    rw [address]
    split
    next k _ => exact writeDirect (d.logServed.setDirect k d.bus.mWriteAddress false) k _
    next =>
      split
      next i _ => exact writeIn d.logServed i _
      next i _ => exact setup i _
      next i _ => exact setup i _
      next i _ => exact setup i _
      next => rfl

private theorem executeReadThread_withCall :
    (d.withCall t log).executeReadThread = d.executeReadThread.withCall t log := by
  have readDirect (d : Device) (k : Port) (v : Word) :
      (d.withCall t log).readDirect k v = (d.readDirect k v).withCall t log := by
    by_cases free : 0 < (d.direct k).dirMemOutFifo.numFree
    · simp [Device.readDirect, withCall, Bus.withCall, free]
    · simp [Device.readDirect, withCall, Bus.withCall, free]
  have endRead (d : Device) (v : Word) :
      (d.withCall t log).endRead v = (d.endRead v).withCall t log := by
    have acknowledged := Bus.notifyReadEnded_withCall
      { d.bus with mRegisterRead := v, readThread := .wait } t log
    exact congrArg (fun b => { d with bus := b }) acknowledged
  have thread : (d.withCall t log).bus.readThread = d.bus.readThread := rfl
  unfold executeReadThread
  rw [thread]
  cases d.bus.readThread with
  | wait | pending => rfl
  | writeDirect k v => exact readDirect d k v
  | responce k =>
    simp only [readResponce, withCall]
    split
    · rfl
    next v fifo _ =>
      exact endRead { d with
        direct := Function.update d.direct k { d.direct k with dirMemResponceFifo := fifo } } v
  | notified =>
    have address : (d.withCall t log).bus.mReadAddress = d.bus.mReadAddress := rfl
    simp only [decodeRead]
    rw [address]
    split
    next k _ => exact readDirect (d.setDirect k d.bus.mReadAddress true) k _
    next =>
      have value (r : ReadTarget) : (d.withCall t log).readRegister r = d.readRegister r := by
        cases r <;> rfl
      rw [value]
      exact endRead d _

/-- Only the initiator's own process reads or writes what it holds. -/
theorem process_withCall {q : Proc} (other : q ≠ .client) :
    (d.withCall t log).process q = (d.process q).withCall t log := by
  cases q with
  | client => exact absurd rfl other
  | executeWriteThread => exact executeWriteThread_withCall
  | executeReadThread => exact executeReadThread_withCall
  | setupfwRule =>
    simp only [process, setupfwRule, withCall]
    split <;> rfl
  | interfaceIn i =>
    rw [process_interfaceIn, process_interfaceIn]
    exact congrArg (fun b => { d.interfaceIn i (portBits i) with bus := b })
      (d.bus.signal_withCall t log _ false)
  | interfaceOut k =>
    rw [process_interfaceOut, process_interfaceOut]
    exact congrArg (fun b => { d.interfaceOut k (memBase k) with bus := b })
      (d.bus.signal_withCall t log _ false)
  | entryResponse =>
    exact congrArg (fun b => { d.entryResponse with bus := b })
      (d.bus.signal_withCall t log _ false)
  | directMemOut k =>
    rw [process_directMemOut, process_directMemOut]
    exact congrArg (fun b => { d.directMemOut k (memBase k) with bus := b })
      (d.bus.signal_withCall t log _ _)
  | entrySw k => fin_cases k <;> rfl
  | entry k | directentry k => rfl

/-- A call is untouched until the initiator's own process runs. -/
theorem process_call (d : Device) {q : Proc} (other : q ≠ .client) :
    (d.process q).bus.trans = d.bus.trans ∧ (d.process q).bus.returned = d.bus.returned := by
  rcases clocked_or_thread q with inside | rfl | rfl | rfl
  · obtain ⟨notify, pending, bus⟩ := d.process_signal inside
    obtain ⟨c, r, frame, -⟩ := d.bus.signal_frame notify pending
    rw [bus, frame]
    exact ⟨rfl, rfl⟩
  · exact absurd rfl other
  · obtain ⟨_, _, _, _, _, _, same, _⟩ := d.executeWriteThread_frame
    rw [process, same]
    exact ⟨rfl, rfl⟩
  · obtain ⟨_, _, _, _, same, _⟩ := d.executeReadThread_frame
    rw [process, same]
    exact ⟨rfl, rfl⟩

/-- The same device, whatever its initiator holds; as many calls have returned to it. -/
def Twin (d e : Device) : Prop :=
  ∃ t log, e = d.withCall t log ∧ log.length = d.bus.returned.length

theorem Twin.refl (d : Device) : Twin d d := ⟨d.bus.trans, d.bus.returned, rfl, rfl⟩

theorem twin_request (h : Twin d e) (u : Transaction) (c : TransportCall) :
    Twin (d.request u) (e.request (u.via c)) := by
  obtain ⟨t, log, rfl, length⟩ := h
  obtain ⟨x, log', same, length'⟩ := d.bus.request_withCall t log u c length
  exact ⟨x, log', congrArg (fun b => { d with bus := b, dirty := true }) same, length'⟩

theorem twin_exec (h : Twin d e) (q : Proc) : Twin (d.exec q) (e.exec q) := by
  obtain ⟨t, log, rfl, length⟩ := h
  by_cases own : q = .client
  · -- each call returns to its own initiator
    subst own
    refine ⟨_, log ++ [_], rfl, ?_⟩
    simp [exec, process, Bus.returns, Bus.finish, length]
  · refine ⟨t, log, ?_, ?_⟩
    · simp only [exec, process_withCall own]
      rfl
    · exact length.trans (congrArg List.length (d.process_call own).2).symm

private theorem rel_guard {c : Prop} [Decidable c] {x y : Device} (h : Twin x y) :
    Option.Rel Twin (if c then some x else none) (if c then some y else none) := by
  split
  · exact .some h
  · exact .none

/-- Twins make the same steps. -/
theorem twin_step (h : Twin d e) (a : Action) :
    Option.Rel Twin (machine.step d a) (machine.step e a) := by
  have request (u : Transaction) : Twin (d.request u) (e.request u) := twin_request h u u.call
  have exec := twin_exec h
  obtain ⟨t, log, rfl, length⟩ := h
  have client : (d.withCall t log).bus.client = d.bus.client := rfl
  simp only [machine, step, client]
  by_cases thrown : d.bus.client = .thrown
  · simp [thrown]
  · rw [if_neg thrown, if_neg thrown]
    cases a with
    | run q => exact rel_guard (exec q)
    | request u => exact rel_guard (request u)
    | delta => exact rel_guard ⟨t, log, rfl, length⟩
    | edge => exact rel_guard ⟨t, log, rfl, length⟩

/-! ### What a write leaves in its payload -/

/-- How far the initiator's write `t` has come, when `log` had returned before it. -/
inductive Holding (t : Transaction) (log : List Transaction) (d : Device) : Prop
  | held (client : d.bus.client = .waitWrite ∨ d.bus.client = .notified) (trans : d.bus.trans = t)
      (returned : d.bus.returned = log)
  | back (more : List Transaction) (returned : d.bus.returned = log ++ t :: more)

theorem holding_step {a : Action} (write : t.command = .write) (h : Holding t log d)
    (hs : Move d a e) : Holding t log e := by
  cases h with
  | back more returned =>
    obtain ⟨next, longer⟩ := returned_of_move hs
    exact .back (more ++ next) (by simp [longer, returned])
  | held client trans returned =>
    cases hs with
    | request u idle => rcases client with at_ | at_ <;> simp [at_] at idle
    | edge => exact .held client trans returned
    | delta =>
      refine .held ?_ trans returned
      rcases client with at_ | at_ <;> simp [update, at_]
    | run q runnable =>
      by_cases own : q = .client
      · -- the call returns with the bytes it was made with
        subst own
        refine .back [] ?_
        simp [exec, process, Bus.returns, Bus.finish, trans, write, returned]
      · obtain ⟨trans', returned'⟩ := d.process_call own
        refine .held ?_ (trans'.trans trans) (returned'.trans returned)
        change (d.process q).bus.client = _ ∨ (d.process q).bus.client = _
        rcases clocked_or_thread q with inside | rfl | rfl | rfl
        · obtain ⟨notify, pending, bus⟩ := d.process_signal inside
          rw [bus, d.bus.signal_client]
          split
          · exact Or.inr rfl
          · exact client
        · exact absurd rfl own
        · obtain ⟨c, _, _, _, _, _, same, woken⟩ := d.executeWriteThread_frame
          rw [process, same]
          exact woken.elim (fun kept => kept ▸ client) Or.inr
        · obtain ⟨c, _, _, _, same, woken⟩ := d.executeReadThread_frame
          rw [process, same]
          exact woken.elim (fun kept => kept ▸ client) Or.inr

theorem write_returns {u : Device} {t' : Transaction} {as : List Action}
    (accepted : t.accepted = true) (write : t.command = .write)
    (hr : machine.run s (.request t :: as) = some u)
    (returned : u.bus.returned = s.bus.returned ++ [t']) : t' = t := by
  obtain ⟨d, first, rest⟩ := (machine.run_cons_iff _ _ _ _).mp hr
  cases move_of_step first with
  | request =>
    have start : Holding t s.bus.returned (s.request t) := by
      have bus := s.bus.request_write t accepted write
      refine .held ?_ ?_ ?_
      all_goals
        simp only [request, bus, Bus.notifyWrite]
        split <;> simp
    have done : Holding t s.bus.returned u :=
      Machine.run_invariant (fun d a e h step => holding_step write h (move_of_step step)) start rest
    cases done with
    | held _ _ none => simp [none] at returned
    | back more log =>
      have same : t :: more = [t'] := List.append_cancel_left (log.symm.trans returned)
      exact (List.cons.inj same).1.symm

/-! ### The two calls side by side -/

/-- What a payload issued in `s` has come to through `b_transport` and through
`transport_dbg`. -/
structure SameOutcome (s : Device) (t : Transaction) (u v : Device) : Prop where
  device : Twin u v
  status : v.bus.responseStatus = u.bus.responseStatus
  returns : ∀ t₁, u.bus.returned = s.bus.returned ++ [t₁] →
    ∃ t₂, v.bus.returned = s.bus.returned ++ [t₂] ∧ t₂.data = t₁.data ∧ t₂.transferred = 4 ∧
      (t.command = .read → t₂.data = s.content t.address)

/-- Under every schedule the calls go the same way. -/
def DebugAgrees (s : Device) (t : Transaction) : Prop :=
  ∀ as, Option.Rel (SameOutcome s t) (machine.run s (.request (t.via .bTransport) :: as))
    (machine.run s (.request (t.via .transportDbg) :: as))

theorem twin_of_calls (idle : s.bus.client = .idle) (t : Transaction) (as : List Action) :
    Option.Rel Twin (machine.run s (.request (t.via .bTransport) :: as))
      (machine.run s (.request (t.via .transportDbg) :: as)) := by
  have first (c : TransportCall) :
      machine.step s (.request (t.via c)) = some (s.request (t.via c)) :=
    step_iff.mpr ⟨by simp [idle], .request _ idle⟩
  simp only [Machine.run_cons, first, Option.bind_some]
  exact Machine.run_rel (fun _ _ a h => twin_step h a)
    (twin_request (Twin.refl s) (t.via .bTransport) .transportDbg) as

theorem returned_of_run {as : List Action} (hr : machine.run d as = some e) :
    ∃ more, e.bus.returned = d.bus.returned ++ more := by
  apply Machine.run_invariant (I := fun e => ∃ more, e.bus.returned = d.bus.returned ++ more) ?_
    ⟨[], (List.append_nil _).symm⟩ hr
  rintro r a e ⟨more, old⟩ step
  obtain ⟨next, longer⟩ := returned_of_move (move_of_step step)
  exact ⟨more ++ next, by rw [longer, old, List.append_assoc]⟩

theorem returns_of_twin {u v : Device} {t₁ : Transaction} {as : List Action} {a : Action}
    (twin : Twin u v) (hr : machine.run s (a :: as) = some v)
    (returned : u.bus.returned = s.bus.returned ++ [t₁]) :
    ∃ t₂, v.bus.returned = s.bus.returned ++ [t₂] := by
  obtain ⟨more, longer⟩ := returned_of_run hr
  obtain ⟨t, log, rfl, length⟩ := twin
  have log_eq : log = s.bus.returned ++ more := longer
  -- as many calls have returned: one
  have one : more.length = 1 := by
    have total := length
    rw [log_eq, returned] at total
    simpa using total
  obtain ⟨t₂, rfl⟩ := List.length_eq_one_iff.mp one
  exact ⟨t₂, longer⟩

/-- A debug read that agrees finds in the read register what it was to read. -/
theorem condition_of_agrees (hs : machine.Reachable s) (idle : s.bus.client = .idle)
    (accepted : t.accepted = true) (agrees : DebugAgrees s t) :
    t.command = .write ∨ t.command = .read ∧ s.bus.mRegisterRead = s.content t.address := by
  have accepted' (c : TransportCall) : (t.via c).accepted = true := accepted
  have outcome {as : List Action} {u : Device} {t₁ : Transaction}
      (run : machine.run s (.request (t.via .bTransport) :: as) = some u)
      (returned : u.bus.returned = s.bus.returned ++ [t₁]) :
      ∃ v t₂, machine.run s (.request (t.via .transportDbg) :: as) = some v ∧
        v.bus.returned = s.bus.returned ++ [t₂] ∧ t₂.transferred = 4 ∧
        (t.command = .read → t₂.data = s.content t.address) := by
    have both := agrees as
    rw [run] at both
    cases other : machine.run s (.request (t.via .transportDbg) :: as) with
    | none => simp [other] at both
    | some v =>
      rw [other, Option.rel_some_some] at both
      obtain ⟨t₂, back, -, transferred, bytes⟩ := both.returns t₁ returned
      exact ⟨v, t₂, rfl, back, transferred, bytes⟩
  cases command : t.command with
  | write => exact Or.inl rfl
  | ignore =>
    -- such a call returns at once, and has transferred nothing
    have first (c : TransportCall) :
        machine.run s [.request (t.via c)] = some (s.request (t.via c)) :=
      (machine.run_cons_iff _ _ _ _).mpr
        ⟨_, step_iff.mpr ⟨by simp [idle], .request _ idle⟩, rfl⟩
    have back (c : TransportCall) :
        (s.request (t.via c)).bus.returned = s.bus.returned ++ [t.via c] := by
      simp only [request, s.bus.request_ignore (t.via c) (accepted' c) command]
      rfl
    obtain ⟨v, t₂, run, returned, transferred, -⟩ := outcome (first _) (back _)
    cases (first .transportDbg).symm.trans run
    have same : [t.via .transportDbg] = [t₂] := List.append_cancel_left ((back _).symm.trans returned)
    obtain rfl := (List.cons.inj same).1
    simp [Transaction.transferred, Transaction.via, command] at transferred
  | read =>
    have comes : ∃ as u t₁, machine.run s (.request (t.via .bTransport) :: as) = some u ∧
        u.bus.returned = s.bus.returned ++ [t₁] := by
      cases port : directPort t.address with
      | some k => exact exists_return hs idle (accepted' _) command port
      | none => exact ⟨_, _, _, run_afterRead hs idle (accepted' _) ⟨command, rfl⟩ port, rfl⟩
    obtain ⟨as, u, t₁, run, returned⟩ := comes
    obtain ⟨v, t₂, run', returned', -, bytes⟩ := outcome run returned
    have left := read_returns hs (accepted' .transportDbg) command run' returned'
    refine Or.inr ⟨rfl, ?_⟩
    rw [← bytes command, left]
    rfl

/-- Debug transport agrees with normal transport for every write, and for the reads for which
the read register holds already what is at the address. -/
theorem debug_agrees_iff (hs : machine.Reachable s) (idle : s.bus.client = .idle)
    (accepted : t.accepted = true) :
    DebugAgrees s t ↔
      t.command = .write ∨ t.command = .read ∧ s.bus.mRegisterRead = s.content t.address := by
  constructor
  · exact condition_of_agrees hs idle accepted
  intro condition as
  have accepted' (c : TransportCall) : (t.via c).accepted = true := accepted
  have length : t.dataLength = 4 := by
    simp only [Transaction.accepted, Bool.and_eq_true, decide_eq_true_eq] at accepted
    exact accepted.1.1
  have twin := twin_of_calls idle t as
  cases run : machine.run s (.request (t.via .bTransport) :: as) with
  | none =>
    cases run' : machine.run s (.request (t.via .transportDbg) :: as) with
    | none => exact .none
    | some v => simp [run, run'] at twin
  | some u =>
    cases run' : machine.run s (.request (t.via .transportDbg) :: as) with
    | none => simp [run, run'] at twin
    | some v =>
      rw [run, run', Option.rel_some_some] at twin
      refine .some ⟨twin, ?_, fun t₁ returned => ?_⟩
      · obtain ⟨x, log, rfl, -⟩ := twin
        rfl
      obtain ⟨t₂, returned'⟩ := returns_of_twin twin run' returned
      refine ⟨t₂, returned', ?_⟩
      rcases condition with write | ⟨read, register⟩
      · obtain rfl := write_returns (accepted' .bTransport) write run returned
        obtain rfl := write_returns (accepted' .transportDbg) write run' returned'
        refine ⟨rfl, ?_, by simp [write]⟩
        simp [Transaction.transferred, Transaction.via, write, length]
      · have first := read_returns hs (accepted' .bTransport) read run returned
        have second := read_returns hs (accepted' .transportDbg) read run' returned'
        rw [first, second]
        refine ⟨register, ?_, fun _ => register⟩
        simp [Transaction.transferred, Transaction.via, read, length]

theorem debug_agrees_iff_of_write : DebugAgrees new ⟨.bTransport, .write, 0x40000000, 7, 4, false⟩ :=
  (debug_agrees_iff machine.reachable_init rfl (by decide)).mpr (Or.inl rfl)

/-- The first debug read of a cell returns the read register's zero. -/
theorem debug_read_returns_register : ¬ ∀ (s : Device) (t : Transaction), machine.Reachable s →
    s.bus.client = .idle → t.accepted = true → DebugAgrees s t := by
  intro claim
  have agrees := claim new ⟨.transportDbg, .read, 0x40000004, 0, 4, false⟩ machine.reachable_init rfl
    (by decide)
  have condition := condition_of_agrees machine.reachable_init rfl (by decide) agrees
  exact absurd condition (by decide)

end Device

end ScCosim.Firewall
