/-!
# Packets of the asynchronous channel

The command and status codes of `async_packet.h` and the packet itself, together with the
part of the TLM generic payload that the co-simulation interface fills in. A packet keeps
its command as a byte, so values past `ASYNC_EXIT` can arrive from a client.
-/
namespace ScCosim.Async

abbrev Byte := BitVec 8

/-- `async_command_t`, in the order of the source. -/
inductive AsyncCommand where
  | ignore
  | read
  | write
  | debugRead
  | debugWrite
  | mutexLock
  | mutexTrylock
  | mutexUnlock
  | interrupt
  | exit
  deriving DecidableEq, Repr

/-- The enumerator's value, as stored in a packet. -/
def AsyncCommand.code : AsyncCommand → Byte
  | .ignore => 0
  | .read => 1
  | .write => 2
  | .debugRead => 3
  | .debugWrite => 4
  | .mutexLock => 5
  | .mutexTrylock => 6
  | .mutexUnlock => 7
  | .interrupt => 8
  | .exit => 9

/-- `async_status_t`. -/
inductive AsyncStatus where
  | incompleteResponse
  | okResponse
  | addressErrorResponse
  | genericErrorResponse
  deriving DecidableEq, Repr

/-- `async_packet`; `data` holds the bytes that `data_ptr` points at. -/
structure AsyncPacket where
  id : Nat
  command : Byte
  status : AsyncStatus
  address : BitVec 64
  delayNs : BitVec 64
  timeNs : BitVec 64
  strmWid : BitVec 16
  dataLen : BitVec 16
  data : List Byte
  deriving DecidableEq, Repr

/-- The constructor with its default arguments: `id` comes from the static counter and the
status starts as incomplete. -/
def AsyncPacket.new (id : Nat) (command : Byte) (address : BitVec 64) (dataLen : BitVec 16)
    (data : List Byte) : AsyncPacket :=
  { id, command, address, dataLen, data, delayNs := 0, timeNs := 0, strmWid := 0,
    status := .incompleteResponse }

/-- `tlm_command`. -/
inductive TlmCommand where
  | read
  | write
  | ignore
  deriving DecidableEq, Repr

/-- `tlm_response_status`; the four errors other than the address error are told apart by
no code here. -/
inductive TlmResponse where
  | incomplete
  | ok
  | addressError
  | otherError
  deriving DecidableEq, Repr

/-- The fields of `tlm_generic_payload` that the interface sets, with the values the
payload's constructor gives them. -/
structure TlmPayload where
  command : TlmCommand := .ignore
  address : BitVec 64 := 0
  data : List Byte := []
  dataLength : BitVec 16 := 0
  streamingWidth : BitVec 16 := 0
  byteEnables : Bool := false
  dmiAllowed : Bool := false
  responseStatus : TlmResponse := .incomplete
  deriving DecidableEq, Repr

end ScCosim.Async
