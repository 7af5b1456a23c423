import Mathlib.Logic.Function.Basic
import ScCosim.Kernel.Channel
import ScCosim.Async.Interface
import ScCosim.Firewall.Word

/-!
# The state of the firewall

Every process of `firewall_with_mem` and of the demo's receivers has the place it waits at,
its local variables and the channels around it. The families of four (ports, switches) are
functions of their number. A packet on its way carries where it came from; no process reads
that part.
-/
namespace ScCosim.Firewall

open Kernel Async

/-! ### Packets on their way -/

/-- Where a packet came from: the port, how many words the port had taken before it, the
word as `interface_in` took it and the rule it was judged by. -/
structure Origin where
  port : Port
  seq : Nat
  word : Word
  rule : Triple
  deriving DecidableEq, Repr

structure Flit where
  word : Word
  origin : Origin
  deriving DecidableEq, Repr

/-- What became of a word that `interface_in` took. -/
inductive Outcome where
  /-- Equal to the word before it. -/
  | repeated
  | hit
  | droped
  | forwarded
  deriving DecidableEq, Repr

/-- A word taken, with the rule latched at that time. -/
structure Taken where
  word : Word
  rule : Triple
  outcome : Outcome
  deriving DecidableEq, Repr

/-! ### The bus -/

/-- One transaction as the co-simulation interface issues it. -/
structure Transaction where
  call : TransportCall
  command : TlmCommand
  address : BitVec 64
  data : Word
  dataLength : Nat := 4
  byteEnables : Bool := false
  deriving DecidableEq, Repr

/-- The initiator: `asysc_sysc_thread_process` around a transport call. -/
inductive ClientPc where
  | idle
  /-- In `wait(m_write_ended_event)`. -/
  | waitWrite
  /-- In `wait(m_read_ended_event)`. -/
  | waitRead
  /-- The event has been notified. -/
  | notified
  /-- Back from the call, waiting for the next delta cycle. -/
  | delay
  /-- `SC_REPORT_ERROR` has thrown. -/
  | thrown
  deriving DecidableEq, Repr

/-- `execute_write_thread`. -/
inductive WritePc where
  /-- In `wait(m_write_event)`. -/
  | wait
  | notified
  /-- Blocked in the `write` of `in_i`. -/
  | writeIn (i : Port) (v : Word)
  /-- Blocked in the `write` of `dir_mem_out_fifo_k`. -/
  | writeDirect (k : Port) (v : Word)
  deriving DecidableEq, Repr

/-- `execute_read_thread`. -/
inductive ReadPc where
  /-- In `wait(m_read_event)`. -/
  | wait
  | notified
  /-- Blocked in the `write` of `dir_mem_out_fifo_k`. -/
  | writeDirect (k : Port) (v : Word)
  /-- In `wait(m_read_event_pending)`. -/
  | pending (k : Port)
  /-- In the `read` of `dir_mem_responce_fifo_k`. -/
  | responce (k : Port)
  deriving DecidableEq, Repr

structure Bus where
  client : ClientPc
  /-- The transaction the initiator is in, with its data bytes. -/
  trans : Transaction
  mReadAddress : BitVec 64
  mWriteAddress : BitVec 64
  mRegisterRead : Word
  mRegisterWrite : Word
  writeThread : WritePc
  readThread : ReadPc
  /-- Every write that `execute_write_thread` has decoded, oldest first. -/
  served : List (BitVec 64 × Word)
  /-- Every transaction that has returned, with the data bytes left in it. -/
  returned : List Transaction
  deriving Repr

/-! ### The processes on the clock -/

/-- A process with an initial part, one `wait()` after it and one at the top of its loop. -/
inductive ThreadPc where
  | start
  | init
  | loop
  deriving DecidableEq, Repr

/-- One port's part of the setup interface and of `setupfw_rule`. -/
structure Setup where
  setupLowerRange : Signal Word
  setupUpperRange : Signal Word
  setupRuleRange : Signal Word
  precommand : Word
  fwLowerRange : Signal Word
  fwUpperRange : Signal Word
  fwRuleRange : Signal Word
  deriving Repr

inductive IngressPc where
  | start
  | init
  | loop
  /-- In the `wait(1)` after a packet. -/
  | wait1
  /-- Blocked in the `write` of `init_responce_fifo_i` for a packet that hit. -/
  | writeHit
  /-- Blocked in the `write` of `init_responce_fifo_i` for a packet to forward. -/
  | writeForward (f : Flit)
  deriving DecidableEq, Repr

/-- `interface_in_i` and `in_i`. -/
structure Ingress where
  in_ : Fifo Word
  pc : IngressPc
  preval : Word
  preReadR : Word
  /-- `fw_read_r`, `fw_read_l` and `fw_read_h`. -/
  fwRead : Triple
  countTotal : Word
  ruleHitCounter : Word
  countDroped : Word
  total : Signal Word
  droped : Signal Word
  fwRuleHitCounter : Signal Word
  taken : List Taken
  deriving Repr

inductive SwitchPc where
  | start
  | init
  | loop
  /-- In the `wait()` after a packet of the first input. -/
  | middle
  deriving DecidableEq, Repr

/-- The two-stage switch; `outFifoS a b` is `out_fifo_s1_0` and so on, the FIFO from switch
`a` of the first stage to switch `b` of the second. -/
structure Switch where
  inFifo : Port → Fifo Flit
  outFifoS : Fin 2 → Fin 2 → Fifo Flit
  outFifo : Port → Fifo Flit
  pc : Fin 4 → SwitchPc

/-- The ready/done handshake with a receiver process. -/
structure Handshake where
  preready : Bool
  ready : Signal Bool
  done : Signal Bool
  outAddrToRead : Signal Word
  /-- Has the receiver reached its first `wait()`? -/
  started : Bool
  indone : Bool
  /-- The addresses the receiver has read, oldest first. -/
  seen : List Word
  deriving Repr

/-- An `out_d->write`. -/
structure OutWrite where
  address : Word
  flit : Flit
  deriving DecidableEq, Repr

inductive EgressPc where
  | start
  | init
  | loop
  /-- Blocked in the `write` of `responce_fifo_d`. -/
  | writeResponce (f : Flit)
  deriving DecidableEq, Repr

/-- `interface_out_d`. -/
structure Egress where
  pc : EgressPc
  isWriteOp : Bool
  handshake : Handshake
  writes : List OutWrite
  deriving Repr

inductive DirectPc where
  | start
  | init
  | loop
  /-- Blocked in the `write` of `dir_mem_responce_fifo_k`. -/
  | writeResponce (v : Word)
  deriving DecidableEq, Repr

/-- `direct_mem_out_k`. -/
structure Direct where
  outAddress : Word
  outRead : Bool
  dirMemOutFifo : Fifo Word
  dirMemResponceFifo : Fifo Word
  pc : DirectPc
  handshake : Handshake
  deriving Repr

inductive ResponcePc where
  | start
  | init
  | loop
  /-- In the `wait()` after a packet of port `n`. -/
  | served (n : Port)
  deriving DecidableEq, Repr

/-- `entry_response` and its FIFOs. -/
structure Responces where
  pc : ResponcePc
  initResponceFifo : Port → Fifo Word
  responceFifo : Port → Fifo Flit
  responceS : Port → Signal Word
  inResponce : Port → Signal Word

/-! ### The whole -/

inductive Proc where
  | client
  | executeWriteThread
  | executeReadThread
  | setupfwRule
  | interfaceIn (i : Port)
  | interfaceOut (d : Port)
  | entrySw (k : Fin 4)
  | entryResponse
  | directMemOut (k : Port)
  | entry (d : Port)
  | directentry (k : Port)
  deriving DecidableEq, Repr

structure Device where
  bus : Bus
  setup : Port → Setup
  setupPc : ThreadPc
  ingress : Port → Ingress
  switch : Switch
  egress : Port → Egress
  responces : Responces
  direct : Port → Direct
  /-- The four BRAMs: index from the start address to cell. -/
  mem : Port → Word → Word
  /-- Processes that the last clock edge woke and that have not run since. -/
  ready : List Proc
  /-- Something has run since the last update phase. -/
  dirty : Bool

/-! ### Initial values -/

def Setup.new : Setup where
  setupLowerRange := Signal.new 0
  setupUpperRange := Signal.new 0
  setupRuleRange := Signal.new 0
  precommand := 0
  fwLowerRange := Signal.new 0
  fwUpperRange := Signal.new 0
  fwRuleRange := Signal.new 0

/-- `in_i` has the default size; the counters and latches are set by the process itself. -/
def Ingress.new : Ingress where
  in_ := Fifo.new 16
  pc := .start
  preval := 0
  preReadR := 0
  fwRead := ⟨0, 0, 0⟩
  countTotal := 0
  ruleHitCounter := 0
  countDroped := 0
  total := Signal.new 0
  droped := Signal.new 0
  fwRuleHitCounter := Signal.new 0
  taken := []

/-- `INTERNAL_FIFO_SIZE` -/
def internalFifoSize : Nat := 10

def Switch.new : Switch where
  inFifo := fun _ => Fifo.new internalFifoSize
  outFifoS := fun _ _ => Fifo.new internalFifoSize
  outFifo := fun _ => Fifo.new internalFifoSize
  pc := fun _ => .start

def Handshake.new : Handshake where
  preready := false
  ready := Signal.new false
  done := Signal.new false
  outAddrToRead := Signal.new 0
  started := false
  indone := false
  seen := []

def Egress.new : Egress := ⟨.start, false, Handshake.new, []⟩

def Direct.new : Direct where
  outAddress := 0
  outRead := false
  dirMemOutFifo := Fifo.new internalFifoSize
  dirMemResponceFifo := Fifo.new internalFifoSize
  pc := .start
  handshake := Handshake.new

def Responces.new : Responces where
  pc := .start
  initResponceFifo := fun _ => Fifo.new internalFifoSize
  responceFifo := fun _ => Fifo.new internalFifoSize
  responceS := fun _ => Signal.new 0
  inResponce := fun _ => Signal.new 0

def Bus.new : Bus where
  client := .idle
  trans := ⟨.bTransport, .ignore, 0, 0, 4, false⟩
  mReadAddress := 0
  mWriteAddress := 0
  mRegisterRead := 0
  mRegisterWrite := 0
  writeThread := .wait
  readThread := .wait
  served := []
  returned := []

/-- `mem_bus_chn` sets each cell to its index. -/
def Device.new : Device where
  bus := Bus.new
  setup := fun _ => Setup.new
  setupPc := .start
  ingress := fun _ => Ingress.new
  switch := Switch.new
  egress := fun _ => Egress.new
  responces := Responces.new
  direct := fun _ => Direct.new
  mem := fun _ index => index
  ready := []
  dirty := false

end ScCosim.Firewall
