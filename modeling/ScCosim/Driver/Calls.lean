import ScCosim.Async.Interface
import ScCosim.Firewall.Registers
import ScCosim.Kernel.Program

/-!
# The virtual kernel driver

The user calls of `sc_user_mode.h` check their arguments and fill in a structure. The
functions of `sc_kernel_mode_tcp.h`, `sc_kernel_mode_shm.h` and `sc_kernel_mode_posix.h` turn
it into requests to the simulator: they are programs that send packets and take replies. The
three transports differ in whether a request waits for its reply. Time stamps, delays and
printed texts are left out.
-/
namespace ScCosim.Driver

open Kernel Async Firewall

/-! ### The structures -/

/-- `sc_fw_ds`, without the `op_code` that nothing sets. -/
structure ScFwDs where
  inputPort : Word
  outputPort : Word
  lAddrReg : Word
  hAddrReg : Word
  ruleReg : Word
  deriving DecidableEq, Repr

/-- `sc_access_ds` -/
structure ScAccessDs where
  opCode : Word
  inputPort : Word
  outputPort : Word
  addr : Word
  data : Word
  deriving DecidableEq, Repr

/-- `sc_direct_access_ds` -/
structure ScDirectAccessDs where
  opCode : Word
  bramNo : Word
  addr : Word
  data : Word
  deriving DecidableEq, Repr

/-! ### The user calls -/

/-- The argument that a user call refuses before it ends the process with `exit(1)`. -/
inductive Refused where
  | inputPort
  | outputPort
  | rule
  | writeOps
  | readOps
  | range
  | opCode
  deriving DecidableEq, Repr

def refuseIf (bad : Bool) (argument : Refused) : Except Refused Unit :=
  if bad then .error argument else .ok ()

/-- `Rule_reg` as `sc_user_setupCFW` adds it up. -/
def ruleRegister (rule writeOps readOps outport : Word) : Word :=
  (rule <<< 7) + ((1 : Word) <<< 6) + (writeOps <<< 5) + (readOps <<< 4) +
    (if outport = 4 then (1 : Word) <<< 3 else (0 : Word) <<< 3) +
    (if outport = 3 then (1 : Word) <<< 2 else (0 : Word) <<< 2) +
    (if outport = 2 then (1 : Word) <<< 1 else (0 : Word) <<< 1) +
    (if outport = 1 then 1 else 0)

/-- The checks of `sc_user_setupCFW` and the structure it passes on. -/
def scUserSetupCFW (inport lAddrReg hAddrReg rule writeOps readOps outport : Word) :
    Except Refused ScFwDs := do
  refuseIf (inport ≤ 0 || inport > 4) .inputPort
  refuseIf (outport ≤ 0 || outport > 4) .outputPort
  refuseIf (rule < 0 || rule > 1) .rule
  refuseIf (writeOps < 0 || writeOps > 1) .writeOps
  refuseIf (readOps < 0 || readOps > 1) .readOps
  refuseIf (lAddrReg ≥ hAddrReg || (lAddrReg < 0x00000000 || lAddrReg ≥ 0x00001000) ||
    (hAddrReg < 0x00000000 || hAddrReg > 0x00001000)) .range
  return {
    inputPort := inport, outputPort := outport, lAddrReg, hAddrReg
    ruleReg := ruleRegister rule writeOps readOps outport }

/-- The checks of `sc_user_accessBramFW` and the structure it passes on. -/
def scUserAccessBramFW (opCode inport outport addrReg data : Word) : Except Refused ScAccessDs := do
  refuseIf (inport ≤ 0 || inport > 4) .inputPort
  refuseIf (outport ≤ 0 || outport > 4) .outputPort
  refuseIf (opCode < 0 || opCode > 1) .opCode
  return {
    opCode, inputPort := inport, outputPort := outport, addr := addrReg
    data := if opCode = 0x1 then 0 else data }

/-! ### Requests and replies -/

/-- `simple_async_packet` as a request. -/
structure SimpleAsyncPacket where
  id : Nat
  command : Byte
  status : AsyncStatus
  address : BitVec 32
  data : Word
  deriving DecidableEq, Repr

/-- The fields of the packet that are read when it comes back. -/
structure Reply where
  status : AsyncStatus
  data : Word
  deriving DecidableEq, Repr

inductive Transport where
  | tcp
  | shm
  | posix
  deriving DecidableEq, Repr

/-- The static counter `id_counter`, the requests sent and the replies to come. -/
abbrev Io (α : Type) := Program Nat SimpleAsyncPacket Reply α

def resetIdCounter : Io Unit := modify fun s => { s with memory := 1 }

/-- Fill in the packet and send it. -/
def request (command : Byte) (address : BitVec 32) (data : Word) : Io Unit := do
  let id := (← get).memory
  modify fun s => { s with memory := id + 1 }
  Program.emit { id, command, status := .incompleteResponse, address, data }

/-- `send_data` waits for the reply; the other two return at once after a request to leave. -/
def Transport.waitsAfterWrite : Transport → Word → Bool
  | .tcp, _ => true
  | .shm, data => data ≠ 0x80000000
  | .posix, data => data ≠ 0x80000000

def scIowrite32 (t : Transport) (data : Word) (address : BitVec 32) : Io Unit := do
  request (if data = 0x80000000 then 9 else AsyncCommand.write.code) address data
  if t.waitsAfterWrite data then
    let _ ← Program.receive

/-- A status error gives `-1`. -/
def Reply.value (r : Reply) : Word := if r.status ≠ .okResponse then -1 else r.data

def scIoread32 (address : BitVec 32) : Io Word := do
  request AsyncCommand.read.code address 0
  Reply.value <$> Program.receive

/-! ### The driver's functions -/

/-- The four words that `sc_setupFW` writes and where. -/
def setupWrites (a : ScFwDs) : List (Word × BitVec 32) :=
  let register (starting : BitVec 32) := nocSetupRegisters + starting + (a.inputPort - 1) * (2 * 4)
  [(0x00000000, register startingRuleReg), (a.lAddrReg, register startingLowerReg),
    (a.hAddrReg, register startingHighReg), (a.ruleReg, register startingRuleReg)]

def scSetupFW (t : Transport) (a : ScFwDs) : Io Unit := do
  resetIdCounter
  (setupWrites a).forM fun w => scIowrite32 t w.1 w.2

/-- `iobram1` to `iobram4`, for the port numbers that the `switch` statements know. -/
def iobram (port : Word) : Option (BitVec 32) :=
  if port = 1 then some 0x80000000
  else if port = 2 then some 0x80001000
  else if port = 3 then some 0x80002000
  else if port = 4 then some 0x80003000
  else none

/-- `iobram1_direct` to `iobram4_direct` -/
def iobramDirect (bramNo : Word) : Option (BitVec 32) :=
  if bramNo = 1 then some 0x40000000
  else if bramNo = 2 then some 0x40001000
  else if bramNo = 3 then some 0x40002000
  else if bramNo = 4 then some 0x40003000
  else none

/-- `write_value`: the word for the packet register. -/
def writeValue (a : ScAccessDs) : Word :=
  if a.opCode = 0x0 then
    (a.addr <<< 24) + ((a.inputPort - 1) <<< 18) + ((a.outputPort - 1) <<< 16) + a.data
  else
    (a.addr <<< 24) + ((0x1 : Word) <<< 20) + ((a.inputPort - 1) <<< 18) + ((a.outputPort - 1) <<< 16) + 0x0

/-- The last 16 bits of what was read. -/
def printData (testData : Word) : Word := ((testData <<< 16) ||| (testData >>> 16)) >>> 16

/-- One round of the loop that waits for the answer. For a port that is none of the four the
`switch` reads nothing and `test_data` stays as it is. -/
def pollResponce (port : Word) : Io (Option Word) :=
  match iobram port with
  | some base => do
    let testData ← scIoread32 (base + 7 * 4)
    return if testData = 0x80000000 then none else some testData
  | none => return none

/-- The `switch` that writes the packet register. -/
def writePacket (t : Transport) (a : ScAccessDs) : Io Unit :=
  match iobram a.inputPort with
  | some base => scIowrite32 t (writeValue a) (base + 5 * 4)
  | none => return ()

/-- The structure comes back with the data that was read. -/
def scAccessBramFW (t : Transport) (a : ScAccessDs) : Io ScAccessDs := do
  writePacket t a
  if a.opCode = 0x0 then
    return a
  else
    let testData ← Program.untilSome (pollResponce a.inputPort)
    return { a with data := printData testData }

/-- A memory that is none of the four makes the call return `-1`, with nothing sent. -/
def scAccessBram (t : Transport) (a : ScDirectAccessDs) : Io ScDirectAccessDs := do
  let addrReg := a.addr * 4
  match iobramDirect a.bramNo with
  | none => return a
  | some base =>
    if a.opCode = 0x0 then
      scIowrite32 t a.data (base + addrReg)
      return a
    else
      let testData ← scIoread32 (base + addrReg)
      return { a with data := testData }

end ScCosim.Driver
