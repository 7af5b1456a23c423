import ScCosim.Firewall.State

/-!
# The bus side

`b_transport` and `transport_dbg`, which run in the initiator's process, and the two threads
they hand each transaction to. An event notified while nobody waits for it is lost.
-/
namespace ScCosim.Firewall

open Kernel Async

/-! ### Register map -/

/-- `D_W_P_i` -/
def dWP (i : Port) : BitVec 64 := 0x80000014 + 0x1000 * BitVec.ofNat 64 i

/-- `D_R_P_i` -/
def dRP (i : Port) : BitVec 64 := 0x8000001C + 0x1000 * BitVec.ofNat 64 i

/-- `D_T_P_i` -/
def dTP (i : Port) : BitVec 64 := 0x80000024 + 0x1000 * BitVec.ofNat 64 i

/-- `D_D_P_i` -/
def dDP (i : Port) : BitVec 64 := 0x8000002C + 0x1000 * BitVec.ofNat 64 i

/-- `D_X_P_i` -/
def dXP (i : Port) : BitVec 64 := 0x80000034 + 0x1000 * BitVec.ofNat 64 i

/-- `F_L_P_i` -/
def fLP (i : Port) : BitVec 64 := 0x50000014 + 8 * BitVec.ofNat 64 i

/-- `F_U_P_i` -/
def fUP (i : Port) : BitVec 64 := 0x50000034 + 8 * BitVec.ofNat 64 i

/-- `F_R_P_i` -/
def fRP (i : Port) : BitVec 64 := 0x50000054 + 8 * BitVec.ofNat 64 i

/-- The port whose register of a kind is at this address. -/
def portAt (register : Port → BitVec 64) (address : BitVec 64) : Option Port :=
  ([0, 1, 2, 3] : List Port).find? fun i => register i = address

/-- The direct BRAM windows below `D_M_R_M`. -/
def directPort (address : BitVec 64) : Option Port :=
  if address < 0x40001000 then some 0
  else if address < 0x40002000 then some 1
  else if address < 0x40003000 then some 2
  else if address < 0x40004000 then some 3
  else none

/-- The cases of the switch in `execute_write_thread`. -/
inductive WriteTarget where
  | packet (i : Port)
  | lower (i : Port)
  | upper (i : Port)
  | rule (i : Port)
  | unknown
  deriving DecidableEq, Repr

def writeTarget (address : BitVec 64) : WriteTarget :=
  ((portAt dWP address).map WriteTarget.packet <|>
    (portAt fLP address).map WriteTarget.lower <|>
    (portAt fUP address).map WriteTarget.upper <|>
    (portAt fRP address).map WriteTarget.rule).getD .unknown

/-- The cases of the switch in `execute_read_thread`. -/
inductive ReadTarget where
  | responce (i : Port)
  | total (i : Port)
  | droped (i : Port)
  | hits (i : Port)
  | unknown
  deriving DecidableEq, Repr

def readTarget (address : BitVec 64) : ReadTarget :=
  ((portAt dRP address).map ReadTarget.responce <|>
    (portAt dTP address).map ReadTarget.total <|>
    (portAt dDP address).map ReadTarget.droped <|>
    (portAt dXP address).map ReadTarget.hits).getD .unknown

/-! ### `b_transport` and `transport_dbg` -/

/-- The address windows that both functions accept. -/
def inWindow (address : BitVec 64) : Bool :=
  (0x40000000 ≤ address && address ≤ 0x40004000) ||
    (0x50000000 < address && address < 0x50000070) ||
    (0x50001000 < address && address < 0x50001070) ||
    (0x80000000 < address && address < 0x80004000)

def Transaction.accepted (t : Transaction) : Bool :=
  t.dataLength = 4 && inWindow t.address && !t.byteEnables

namespace Bus

/-- `m_write_event.notify()` -/
def notifyWrite (b : Bus) : Bus :=
  if b.writeThread = .wait then { b with writeThread := .notified } else b

/-- `m_read_event.notify()` -/
def notifyRead (b : Bus) : Bus :=
  if b.readThread = .wait then { b with readThread := .notified } else b

/-- `m_write_ended_event.notify()` -/
def notifyWriteEnded (b : Bus) : Bus :=
  if b.client = .waitWrite then { b with client := .notified } else b

/-- `m_read_ended_event.notify()` -/
def notifyReadEnded (b : Bus) : Bus :=
  if b.client = .waitRead then { b with client := .notified } else b

/-- `m_read_event_pending.notify()` -/
def notifyReadPending (b : Bus) : Bus :=
  match b.readThread with
  | .pending k => { b with readThread := .responce k }
  | _ => b

/-- The call returns with these data bytes; the initiator then waits for a delta cycle. -/
def finish (b : Bus) (t : Transaction) : Bus :=
  { b with client := .delay, trans := t, returned := b.returned ++ [t] }

/-- Both functions up to their wait. A debug read copies the read register out before it
waits. -/
def request (b : Bus) (t : Transaction) : Bus :=
  if t.accepted then
    match t.command with
    | .read =>
      { b with
        client := .waitRead
        trans := if t.call = TransportCall.transportDbg then { t with data := b.mRegisterRead } else t
        mReadAddress := t.address }.notifyRead
    | .write =>
      { b with
        client := .waitWrite
        trans := t
        mWriteAddress := t.address
        mRegisterWrite := t.data }.notifyWrite
    | .ignore => b.finish t
  else { b with client := .thrown, trans := t }

/-- Both functions after their wait. -/
def returns (b : Bus) : Bus :=
  b.finish <|
    if b.trans.command = .read ∧ b.trans.call = .bTransport then
      { b.trans with data := b.mRegisterRead }
    else b.trans

end Bus

/-! ### The notifications of the clocked processes -/

namespace Bus

/-- The end of a write, or the answer of a direct read, or both. -/
def signal (b : Bus) (notify pending : Bool) : Bus :=
  let b := if pending then b.notifyReadPending else b
  if notify then b.notifyWriteEnded else b

variable (b : Bus) (notify pending : Bool)

theorem notifyWriteEnded_frame : ∃ c, b.notifyWriteEnded = { b with client := c } ∧
    (c = b.client ∨ c = .notified) := by
  unfold notifyWriteEnded
  split
  · exact ⟨_, rfl, Or.inr rfl⟩
  · exact ⟨b.client, rfl, Or.inl rfl⟩

theorem notifyReadEnded_frame : ∃ c, b.notifyReadEnded = { b with client := c } ∧
    (c = b.client ∨ c = .notified) := by
  unfold notifyReadEnded
  split
  · exact ⟨_, rfl, Or.inr rfl⟩
  · exact ⟨b.client, rfl, Or.inl rfl⟩

theorem signal_client : (b.signal notify pending).client =
    if notify = true ∧ b.client = .waitWrite then .notified else b.client := by
  have same : b.notifyReadPending.client = b.client := by
    unfold notifyReadPending
    split <;> rfl
  unfold signal notifyWriteEnded
  -- the event for direct reads wakes the read thread, never the initiator
  cases notify <;> cases pending <;> simp [same] <;> split <;> simp_all

/-- Only the initiator and the read thread can be woken. -/
theorem signal_frame : ∃ c r, b.signal notify pending = { b with client := c, readThread := r } ∧
    (r = b.readThread ∨ ∃ k, b.readThread = .pending k ∧ r = .responce k) := by
  have read : ∃ r, b.notifyReadPending = { b with readThread := r } ∧
      (r = b.readThread ∨ ∃ k, b.readThread = .pending k ∧ r = .responce k) := by
    unfold notifyReadPending
    cases held : b.readThread with
    | pending k => exact ⟨_, rfl, Or.inr ⟨k, rfl, rfl⟩⟩
    | _ => exact ⟨b.readThread, rfl, Or.inl held⟩
  obtain ⟨r, frame, woken⟩ := read
  unfold signal
  -- both notifications, one, or none
  cases pending <;> cases notify
  · exact ⟨b.client, b.readThread, rfl, Or.inl rfl⟩
  · obtain ⟨c, same, _⟩ := b.notifyWriteEnded_frame
    exact ⟨c, b.readThread, same, Or.inl rfl⟩
  · exact ⟨b.client, r, frame, woken⟩
  · obtain ⟨c, same, _⟩ := b.notifyReadPending.notifyWriteEnded_frame
    rw [frame] at same
    exact ⟨c, r, by simp [frame, same], woken⟩

/-- While the initiator waits for the end of a write, it is woken by that alone. -/
theorem signal_waits (waits : b.client = .waitWrite) : ∃ r, b.signal notify pending =
    { b with client := if notify then .notified else .waitWrite, readThread := r } := by
  obtain ⟨c, r, frame, _⟩ := b.signal_frame notify pending
  have client := b.signal_client notify pending
  rw [frame] at client
  have client : c = if notify then .notified else .waitWrite := by simpa [waits] using client
  exact ⟨r, by rw [frame, client]⟩

end Bus

/-! ### The two threads -/

namespace Device

/-- `in_i.write(v)`: the thread blocks while there is no free place. -/
def writeIn (d : Device) (i : Port) (v : Word) : Device :=
  if 0 < (d.ingress i).in_.numFree then
    { d with
      ingress := Function.update d.ingress i
        { d.ingress i with in_ := (d.ingress i).in_.push v }
      bus.writeThread := .wait }
  else { d with bus.writeThread := .writeIn i v }

/-- `dir_mem_out_fifo_k.write(v)` for a write. -/
def writeDirect (d : Device) (k : Port) (v : Word) : Device :=
  if 0 < (d.direct k).dirMemOutFifo.numFree then
    { d with
      direct := Function.update d.direct k
        { d.direct k with dirMemOutFifo := (d.direct k).dirMemOutFifo.push v }
      bus.writeThread := .wait }
  else { d with bus.writeThread := .writeDirect k v }

/-- `out_address_k = address; out_read_k = read;` -/
def setDirect (d : Device) (k : Port) (address : BitVec 64) (read : Bool) : Device :=
  { d with
    direct := Function.update d.direct k
      { d.direct k with outAddress := address.truncate 32, outRead := read } }

/-- A setup register is written and the write acknowledged. -/
def writeSetup (d : Device) (i : Port) (s : Setup) : Device :=
  { d with
    setup := Function.update d.setup i s
    bus := { d.bus with writeThread := .wait }.notifyWriteEnded }

/-- The write is put on record. -/
def logServed (d : Device) : Device :=
  { d with bus.served := d.bus.served ++ [(d.bus.mWriteAddress, d.bus.mRegisterWrite)] }

/-- `execute_write_thread` on a setup register of port `i`. -/
def decodeSetup (d : Device) (i : Port) (register : Setup → Setup) : Device :=
  d.logServed.writeSetup i (register (d.setup i))

/-- `execute_write_thread` for a new request. -/
def decodeWrite (d : Device) : Device :=
  let v := d.bus.mRegisterWrite
  match directPort d.bus.mWriteAddress with
  | some k => (d.logServed.setDirect k d.bus.mWriteAddress false).writeDirect k v
  | none =>
    match writeTarget d.bus.mWriteAddress with
    | .packet i => d.logServed.writeIn i v
    | .lower i => d.decodeSetup i fun s => { s with setupLowerRange := s.setupLowerRange.write v }
    | .upper i => d.decodeSetup i fun s => { s with setupUpperRange := s.setupUpperRange.write v }
    | .rule i => d.decodeSetup i fun s => { s with setupRuleRange := s.setupRuleRange.write v }
    -- 'Unknown Address request': nothing is notified
    | .unknown => { d.logServed with bus.writeThread := .wait }

def executeWriteThread (d : Device) : Device :=
  match d.bus.writeThread with
  | .wait => d
  | .notified => d.decodeWrite
  | .writeIn i v => d.writeIn i v
  | .writeDirect k v => d.writeDirect k v

/-- `dir_mem_out_fifo_k.write(v)` for a read, then the wait for `m_read_event_pending`. -/
def readDirect (d : Device) (k : Port) (v : Word) : Device :=
  if 0 < (d.direct k).dirMemOutFifo.numFree then
    { d with
      direct := Function.update d.direct k
        { d.direct k with dirMemOutFifo := (d.direct k).dirMemOutFifo.push v }
      bus.readThread := .pending k }
  else { d with bus.readThread := .writeDirect k v }

/-- `m_register_read` is set and the read acknowledged. -/
def endRead (d : Device) (v : Word) : Device :=
  { d with bus := { d.bus with mRegisterRead := v, readThread := .wait }.notifyReadEnded }

/-- What the switch reads; an unknown address leaves `m_register_read` alone. -/
def readRegister (d : Device) : ReadTarget → Word
  | .responce i => (d.responces.inResponce i).cur
  | .total i => (d.ingress i).total.cur
  | .droped i => (d.ingress i).droped.cur
  | .hits i => (d.ingress i).fwRuleHitCounter.cur
  | .unknown => d.bus.mRegisterRead

/-- `execute_read_thread` for a new request. A direct read sends `m_register_write`. -/
def decodeRead (d : Device) : Device :=
  match directPort d.bus.mReadAddress with
  | some k => (d.setDirect k d.bus.mReadAddress true).readDirect k d.bus.mRegisterWrite
  | none => d.endRead (d.readRegister (readTarget d.bus.mReadAddress))

/-- `dir_mem_responce_fifo_k.read()`, then the acknowledgement. -/
def readResponce (d : Device) (k : Port) : Device :=
  match (d.direct k).dirMemResponceFifo.nbRead with
  | none => d
  | some (v, fifo) =>
    { d with
      direct := Function.update d.direct k
        { d.direct k with dirMemResponceFifo := fifo } }.endRead v

def executeReadThread (d : Device) : Device :=
  match d.bus.readThread with
  | .wait => d
  | .notified => d.decodeRead
  | .writeDirect k v => d.readDirect k v
  | .pending _ => d
  | .responce k => d.readResponce k

/-! ### What the threads leave alone -/

/-- The read thread changes its register, its own place and the direct path, and may wake the
initiator. -/
theorem executeReadThread_frame (d : Device) : ∃ client value thread direct,
    d.executeReadThread =
      { d with
        bus := { d.bus with client := client, mRegisterRead := value, readThread := thread }
        direct := direct } ∧ (client = d.bus.client ∨ client = .notified) := by
  have readDirect (d : Device) (k : Port) (v : Word) : ∃ thread direct,
      d.readDirect k v =
        { d with bus := { d.bus with readThread := thread }, direct := direct } := by
    unfold Device.readDirect
    split
    · exact ⟨_, _, rfl⟩
    · exact ⟨_, d.direct, rfl⟩
  have endRead (d : Device) (v : Word) : ∃ client,
      d.endRead v =
        { d with bus := { d.bus with client := client, mRegisterRead := v, readThread := .wait } } ∧
        (client = d.bus.client ∨ client = .notified) := by
    obtain ⟨client, same, woken⟩ :=
      Bus.notifyReadEnded_frame { d.bus with mRegisterRead := v, readThread := .wait }
    exact ⟨client, by rw [Device.endRead, same], woken⟩
  unfold executeReadThread
  cases at_ : d.bus.readThread with
  -- a thread that waits runs only when it is notified
  | wait | pending => exact ⟨d.bus.client, d.bus.mRegisterRead, d.bus.readThread, d.direct, rfl,
      Or.inl rfl⟩
  | writeDirect k v =>
    obtain ⟨thread, direct, same⟩ := readDirect d k v
    exact ⟨_, _, thread, direct, same, Or.inl rfl⟩
  | responce k =>
    simp only [readResponce]
    split
    · exact ⟨d.bus.client, d.bus.mRegisterRead, d.bus.readThread, d.direct, rfl,
      Or.inl rfl⟩
    next v fifo _ =>
      obtain ⟨client, same, woken⟩ := endRead { d with
        direct := Function.update d.direct k { d.direct k with dirMemResponceFifo := fifo } } v
      exact ⟨client, _, _, _, same, woken⟩
  | notified =>
    simp only [decodeRead]
    split
    next k _ =>
      obtain ⟨thread, direct, same⟩ :=
        readDirect (d.setDirect k d.bus.mReadAddress true) k d.bus.mRegisterWrite
      exact ⟨_, _, thread, direct, same, Or.inl rfl⟩
    next =>
      obtain ⟨client, same, woken⟩ := endRead d (d.readRegister (readTarget d.bus.mReadAddress))
      exact ⟨client, _, _, d.direct, same, woken⟩

/-- The write thread does not reach behind the FIFOs `in_i`; it logs what it serves, and may
wake the initiator. -/
theorem executeWriteThread_frame (d : Device) : ∃ client thread served setup ingress direct,
    d.executeWriteThread =
      { d with
        bus := { d.bus with client := client, writeThread := thread, served := served }
        setup := setup
        ingress := ingress
        direct := direct } ∧ (client = d.bus.client ∨ client = .notified) := by
  have writeIn (d : Device) (i : Port) (v : Word) : ∃ thread ingress,
      d.writeIn i v =
        { d with bus := { d.bus with writeThread := thread }, ingress := ingress } := by
    unfold Device.writeIn
    split
    · exact ⟨_, _, rfl⟩
    · exact ⟨_, d.ingress, rfl⟩
  have writeDirect (d : Device) (k : Port) (v : Word) : ∃ thread direct,
      d.writeDirect k v =
        { d with bus := { d.bus with writeThread := thread }, direct := direct } := by
    unfold Device.writeDirect
    split
    · exact ⟨_, _, rfl⟩
    · exact ⟨_, d.direct, rfl⟩
  have decodeSetup (i : Port) (register : Setup → Setup) : ∃ client served setup,
      d.decodeSetup i register =
        { d with
          bus := { d.bus with client := client, writeThread := .wait, served := served }
          setup := setup } ∧ (client = d.bus.client ∨ client = .notified) := by
    obtain ⟨client, same, woken⟩ :=
      Bus.notifyWriteEnded_frame { d.logServed.bus with writeThread := .wait }
    exact ⟨client, _, _, by rw [Device.decodeSetup, writeSetup, same]; rfl, woken⟩
  unfold executeWriteThread
  cases d.bus.writeThread with
  | wait =>
    exact ⟨d.bus.client, d.bus.writeThread, d.bus.served, d.setup, d.ingress, d.direct, rfl,
      Or.inl rfl⟩
  | writeIn i v =>
    obtain ⟨thread, ingress, same⟩ := writeIn d i v
    exact ⟨_, thread, _, d.setup, ingress, d.direct, same, Or.inl rfl⟩
  | writeDirect k v =>
    obtain ⟨thread, direct, same⟩ := writeDirect d k v
    exact ⟨_, thread, _, d.setup, d.ingress, direct, same, Or.inl rfl⟩
  | notified =>
    simp only [decodeWrite]
    split
    next k _ =>
      obtain ⟨thread, direct, same⟩ :=
        writeDirect (d.logServed.setDirect k d.bus.mWriteAddress false) k d.bus.mRegisterWrite
      exact ⟨_, thread, _, d.setup, d.ingress, direct, same, Or.inl rfl⟩
    next =>
      split
      next i _ =>
        obtain ⟨thread, ingress, same⟩ := writeIn d.logServed i d.bus.mRegisterWrite
        exact ⟨_, thread, _, d.setup, ingress, d.direct, same, Or.inl rfl⟩
      -- an unknown address changes nothing but the log
      case h_5 => exact ⟨d.bus.client, _, _, d.setup, d.ingress, d.direct, rfl, Or.inl rfl⟩
      all_goals
        obtain ⟨client, served, setup, same, woken⟩ := decodeSetup _ _
        exact ⟨client, _, served, setup, d.ingress, d.direct, same, woken⟩

/-- What the threads leave alone in a direct port: they only add requests and take answers. -/
structure SameDirect (g g' : Direct) : Prop where
  pc : g'.pc = g.pc
  handshake : g'.handshake = g.handshake
  size : g'.dirMemOutFifo.size = g.dirMemOutFifo.size
  readable : g'.dirMemOutFifo.readable = g.dirMemOutFifo.readable

theorem sameDirect_update {f f' : Port → Direct} {k : Port} {g : Direct}
    (update : f' = Function.update f k g) (h : SameDirect (f k) g) (j : Port) :
    SameDirect (f j) (f' j) := by
  rw [update]
  by_cases same : j = k
  · subst same
    rw [Function.update_self]
    exact h
  · rw [Function.update_of_ne same]
    exact ⟨rfl, rfl, rfl, rfl⟩

section direct

variable (d : Device) (j k : Port) (v : Word)

private theorem sameDirect_writeDirect :
    SameDirect (d.direct j) ((d.writeDirect k v).direct j) := by
  unfold writeDirect
  split
  · -- a word written is held for the reader until the update
    apply sameDirect_update (k := k) rfl
    exact ⟨rfl, rfl, rfl, rfl⟩
  · exact ⟨rfl, rfl, rfl, rfl⟩

private theorem sameDirect_readDirect :
    SameDirect (d.direct j) ((d.readDirect k v).direct j) := by
  unfold readDirect
  split
  · apply sameDirect_update (k := k) rfl
    exact ⟨rfl, rfl, rfl, rfl⟩
  · exact ⟨rfl, rfl, rfl, rfl⟩

private theorem SameDirect.trans {f g h : Direct} (first : SameDirect f g)
    (second : SameDirect g h) : SameDirect f h :=
  ⟨second.pc.trans first.pc, second.handshake.trans first.handshake,
    second.size.trans first.size, second.readable.trans first.readable⟩

theorem executeWriteThread_direct : SameDirect (d.direct j) (d.executeWriteThread.direct j) := by
  have same : SameDirect (d.direct j) (d.direct j) := ⟨rfl, rfl, rfl, rfl⟩
  unfold executeWriteThread
  cases d.bus.writeThread with
  | wait => exact same
  | writeDirect k v => exact d.sameDirect_writeDirect j k v
  | writeIn i v =>
    simp only [writeIn]
    split <;> exact same
  | notified =>
    simp only [decodeWrite]
    split
    -- first the address and the direction, then the word
    next k _ =>
      have set : SameDirect (d.direct j)
          ((d.logServed.setDirect k d.bus.mWriteAddress false).direct j) := by
        apply sameDirect_update (k := k) rfl
        exact ⟨rfl, rfl, rfl, rfl⟩
      exact set.trans (sameDirect_writeDirect _ j k _)
    next =>
      split
      next i _ =>
        simp only [writeIn]
        split <;> exact same
      all_goals exact same

theorem executeReadThread_direct : SameDirect (d.direct j) (d.executeReadThread.direct j) := by
  have same : SameDirect (d.direct j) (d.direct j) := ⟨rfl, rfl, rfl, rfl⟩
  unfold executeReadThread
  cases d.bus.readThread with
  | wait | pending => exact same
  | writeDirect k v => exact d.sameDirect_readDirect j k v
  | responce k =>
    simp only [readResponce]
    split
    · exact same
    · -- the answer is taken out of the FIFO that `SameDirect` does not speak of
      apply sameDirect_update (k := k) rfl
      exact ⟨rfl, rfl, rfl, rfl⟩
  | notified =>
    simp only [decodeRead]
    split
    next k _ =>
      have set : SameDirect (d.direct j)
          ((d.setDirect k d.bus.mReadAddress true).direct j) := by
        apply sameDirect_update (k := k) rfl
        exact ⟨rfl, rfl, rfl, rfl⟩
      exact set.trans (sameDirect_readDirect _ j k _)
    next => exact same

end direct

end Device

end ScCosim.Firewall
