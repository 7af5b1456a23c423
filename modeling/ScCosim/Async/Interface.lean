import Mathlib.Logic.Function.Basic
import ScCosim.Kernel.Machine
import ScCosim.Async.Channel
import ScCosim.Async.Packet

/-!
# The co-simulation interface

`async_sc_cosim_int` runs one OS thread that serves the clients one request at a time
(`async_os_thread`) and one SystemC thread that forwards each packet to the target
(`asysc_sysc_thread_process`). Here the two loops, the kernel's update cycle and the target
are interleaved step by step. Packets are shared objects, so the queues hold pointers into a
heap. The target is the environment: it answers a call with any response status and any
data, and it leaves the payload's command alone.
-/
namespace ScCosim.Async

open Kernel

/-- Index of a packet object on the heap. -/
abbrev Ptr := Nat

/-! ### One round of `asysc_sysc_thread_process` -/

/-- The first command switch: a command that is not one of the five TLM commands leaves the
payload's command as it was. -/
def switchCommand (command : Byte) (current : TlmCommand) : TlmCommand :=
  if command = AsyncCommand.ignore.code then .ignore
  else if command = AsyncCommand.write.code then .write
  else if command = AsyncCommand.debugWrite.code then .write
  else if command = AsyncCommand.read.code then .read
  else if command = AsyncCommand.debugRead.code then .read
  else current

/-- Set up the TLM generic payload, which lives across the rounds of the loop. -/
def setupTrans (trans : TlmPayload) (p : AsyncPacket) : TlmPayload :=
  { trans with
    address := p.address
    data := p.data
    dataLength := p.dataLen
    streamingWidth := p.dataLen
    byteEnables := false
    dmiAllowed := false
    responseStatus := .incomplete
    command := switchCommand p.command trans.command }

inductive TransportCall where
  | bTransport
  | transportDbg
  deriving DecidableEq, Repr

/-- The second command switch. -/
def transportCall (command : Byte) : TransportCall :=
  if command = AsyncCommand.debugRead.code then .transportDbg
  else if command = AsyncCommand.debugWrite.code then .transportDbg
  else .bTransport

/-- What the target leaves in the payload when it returns. -/
structure TargetReply where
  responseStatus : TlmResponse
  data : List Byte
  deriving DecidableEq, Repr

def targetReturns (trans : TlmPayload) (r : TargetReply) : TlmPayload :=
  { trans with responseStatus := r.responseStatus, data := r.data }

/-- The status switch. -/
def statusOf : TlmResponse → AsyncStatus
  | .ok => .okResponse
  | .addressError => .addressErrorResponse
  | .incomplete => .incompleteResponse
  | .otherError => .genericErrorResponse

/-- The packet after the target's return: the target wrote its bytes through `data_ptr`. -/
def updatePacket (p : AsyncPacket) (trans : TlmPayload) : AsyncPacket :=
  { p with status := statusOf trans.responseStatus, data := trans.data }

/-! ### The two loops -/

/-- The part of `simple_async_packet` that a client fills in: `data` holds the four bytes of
its data word as they lie in memory. -/
structure Request where
  command : Byte
  address : BitVec 32
  data : List Byte
  deriving DecidableEq, Repr

/-- `async_os_thread`: it holds the packet it made until `nb_pull` overwrites the pointer. -/
inductive OsPc where
  | accept
  | push (p : Ptr)
  | waitForPut (p : Ptr)
  | nbPull (p : Ptr)
  | reply (p : Ptr)
  /-- Past the loop: 'Exit if commanded' has run. -/
  | closed
  deriving DecidableEq, Repr

/-- `asysc_sysc_thread_process`. -/
inductive SyscPc where
  /-- Not yet at its first wait: the OS thread runs from the constructor on. -/
  | starting
  /-- Suspended on `sysc_pushed_event()`. -/
  | waitEvent
  /-- Woken, on its way to `nb_get`. -/
  | nbGet
  /-- Suspended in the target's transport call, or in the `wait(delay)` after it. -/
  | transport (p : Ptr) (call : TransportCall)
  /-- Back from the target, before `nb_put`. -/
  | nbPut (p : Ptr)
  /-- After `nb_put`, on its way back to the wait. -/
  | loop
  /-- Past the `break`, suspended in `wait(2,SC_SEC)`. -/
  | leaving
  /-- After `sc_stop()`. -/
  | stopped
  deriving DecidableEq, Repr

/-- The kernel can go on: the process is suspended or has not been run. -/
def SyscPc.suspended : SyscPc → Bool
  | .starting | .waitEvent | .transport _ _ | .leaving => true
  | _ => false

/-- What has happened so far, oldest first. Nothing in the two loops reads it. -/
structure Record where
  /-- Accepted requests, each with the packet made for it. -/
  accepted : List (Request × Ptr)
  /-- Packets that `nb_get` has yielded. -/
  got : List Ptr
  /-- Packets the target has returned from, with the status the process wrote in them. -/
  written : List (Ptr × AsyncStatus)
  /-- Packets given to `nb_put`. -/
  put : List Ptr
  /-- Packets that `nb_pull` has yielded, with the status the OS thread found in them. -/
  pulled : List (Ptr × AsyncStatus)

structure Cosim where
  heap : Ptr → AsyncPacket
  next : Ptr
  sched : Scheduled Ptr
  trans : TlmPayload
  os : OsPc
  sysc : SyscPc
  record : Record

namespace Cosim

inductive Action where
  | accept (r : Request)
  | push
  | waitForPut
  | nbPull
  | reply
  | kernel
  | nbGet
  | target (r : TargetReply)
  | nbPut
  | loop
  | stop
  deriving DecidableEq, Repr

def new : Cosim where
  heap := fun _ => AsyncPacket.new 0 0 0 0 []
  next := 0
  sched := Scheduled.new
  trans := {}
  os := .accept
  sysc := .starting
  record := ⟨[], [], [], [], []⟩

/-- `new async_packet(...)`: the static counter is the index of the object. -/
def alloc (s : Cosim) (command : Byte) (address : BitVec 64) (dataLen : BitVec 16)
    (data : List Byte) : Cosim :=
  { s with
    heap := Function.update s.heap s.next (AsyncPacket.new s.next command address dataLen data)
    next := s.next + 1 }

/-- The OS thread receives a request and makes its packet. -/
def accept (s : Cosim) (r : Request) : Cosim :=
  { s.alloc r.command (r.address.zeroExtend 64) 4 r.data with
    os := .push s.next
    record.accepted := s.record.accepted ++ [(r, s.next)] }

def push (s : Cosim) (p : Ptr) : Cosim :=
  { s with sched.channel := s.sched.channel.push p, os := .waitForPut p }

def nbPull (s : Cosim) : Cosim :=
  match s.sched.channel.nbPull with
  -- 'Missing response': an incomplete status is sent and the loop continues
  | none => { s with os := .accept }
  | some (q, c) =>
    { s with
      sched.channel := c
      os := .reply q
      record.pulled := s.record.pulled ++ [(q, (s.heap q).status)] }

/-- Send the reply; leave the loop after an `ASYNC_EXIT`. -/
def reply (s : Cosim) (p : Ptr) : Cosim :=
  { s with os := if (s.heap p).command = AsyncCommand.exit.code then .closed else .accept }

/-- From a packet in hand to the transport call, or to the `break`. -/
def forward (s : Cosim) (p : Ptr) : Cosim :=
  { s with
    trans := setupTrans s.trans (s.heap p)
    sysc :=
      if (s.heap p).command = AsyncCommand.exit.code then .leaving
      else .transport p (transportCall (s.heap p).command) }

/-- Make the placeholder packet, then `nb_get`; when that fails ('Missing response') the
process goes on with the placeholder. -/
def nbGet (s : Cosim) : Cosim :=
  match s.sched.channel.nbGet with
  | none => (s.alloc AsyncCommand.ignore.code 0 0 []).forward s.next
  | some (p, c) =>
    { s.alloc AsyncCommand.ignore.code 0 0 [] with
      sched.channel := c, record.got := s.record.got ++ [p] }.forward p

/-- The target returns; the process writes the status into the packet. -/
def target (s : Cosim) (p : Ptr) (r : TargetReply) : Cosim :=
  let trans := targetReturns s.trans r
  { s with
    trans := trans
    heap := Function.update s.heap p (updatePacket (s.heap p) trans)
    sysc := .nbPut p
    record.written := s.record.written ++ [(p, statusOf r.responseStatus)] }

def nbPut (s : Cosim) (p : Ptr) : Cosim :=
  { s with
    sched.channel := s.sched.channel.nbPut p
    sysc := .loop
    record.put := s.record.put ++ [p] }

/-- The top of the loop, where the process comes from its start or from a round. -/
def AtTop (sysc : SyscPc) : Prop := sysc = .starting ∨ sysc = .loop

instance (sysc : SyscPc) : Decidable (AtTop sysc) := inferInstanceAs (Decidable (_ ∨ _))

/-- The notification phase wakes the process if it is waiting for the event. -/
def deliver (s : Cosim) : SyscPc :=
  if s.sched.phase = .notify ∧ s.sched.channel.mSyscPushedEvent = true ∧ s.sysc = .waitEvent then
    .nbGet
  else s.sysc

/-- One step. Steps of the SystemC process belong to the kernel's evaluation phase; the OS
thread's steps can fall anywhere. -/
def step (s : Cosim) : Action → Option Cosim
  | .accept r => if s.os = .accept then some (s.accept r) else none
  | .push =>
    match s.os with
    | .push p => some (s.push p)
    | _ => none
  | .waitForPut =>
    match s.os with
    | .waitForPut p =>
      s.sched.channel.waitForPut.map fun c => { s with sched.channel := c, os := .nbPull p }
    | _ => none
  | .nbPull =>
    match s.os with
    | .nbPull _ => some s.nbPull
    | _ => none
  | .reply =>
    match s.os with
    | .reply p => some (s.reply p)
    | _ => none
  | .kernel =>
    (s.sched.kernelStep s.sysc.suspended).map fun k => { s with sched := k, sysc := s.deliver }
  | .nbGet => if s.sysc = .nbGet ∧ s.sched.phase = .evaluate then some s.nbGet else none
  | .target r =>
    match s.sysc with
    | .transport p _ => if s.sched.phase = .evaluate then some (s.target p r) else none
    | _ => none
  | .nbPut =>
    match s.sysc with
    | .nbPut p => if s.sched.phase = .evaluate then some (s.nbPut p) else none
    | _ => none
  | .loop =>
    if AtTop s.sysc ∧ s.sched.phase = .evaluate then some { s with sysc := .waitEvent } else none
  | .stop =>
    if s.sysc = .leaving ∧ s.sched.phase = .evaluate then some { s with sysc := .stopped } else none

def machine : Machine Cosim Action := ⟨new, step⟩

/-- What a step can be, one constructor for each action with what enables it. -/
inductive Transition (s : Cosim) : Action → Cosim → Prop
  | accept (r : Request) (os : s.os = .accept) : Transition s (.accept r) (s.accept r)
  | push (p : Ptr) (os : s.os = .push p) : Transition s .push (s.push p)
  | waitForPut (p : Ptr) (c : AsyncChannel Ptr) (os : s.os = .waitForPut p)
      (locked : s.sched.channel.waitForPut = some c) :
      Transition s .waitForPut { s with sched.channel := c, os := .nbPull p }
  | nbPull (p : Ptr) (os : s.os = .nbPull p) : Transition s .nbPull s.nbPull
  | reply (p : Ptr) (os : s.os = .reply p) : Transition s .reply (s.reply p)
  | kernel (k : Scheduled Ptr) (sched : s.sched.kernelStep s.sysc.suspended = some k) :
      Transition s .kernel { s with sched := k, sysc := s.deliver }
  | nbGet (sysc : s.sysc = .nbGet) : Transition s .nbGet s.nbGet
  | target (p : Ptr) (call : TransportCall) (r : TargetReply) (sysc : s.sysc = .transport p call)
      (phase : s.sched.phase = .evaluate) : Transition s (.target r) (s.target p r)
  | nbPut (p : Ptr) (sysc : s.sysc = .nbPut p) : Transition s .nbPut (s.nbPut p)
  | loop (sysc : AtTop s.sysc) (phase : s.sched.phase = .evaluate) :
      Transition s .loop { s with sysc := .waitEvent }
  | stop (sysc : s.sysc = .leaving) (phase : s.sched.phase = .evaluate) :
      Transition s .stop { s with sysc := .stopped }

theorem transition_of_step {s t : Cosim} {a : Action} (h : machine.step s a = some t) :
    Transition s a t := by
  cases a <;> simp only [machine, step] at h
  case accept r =>
    split at h
    next os => cases h; exact .accept r os
    next => cases h
  case push =>
    split at h
    next p os => cases h; exact .push p os
    next => cases h
  case waitForPut =>
    split at h
    next p os =>
      obtain ⟨c, locked, rfl⟩ := Option.map_eq_some_iff.mp h
      exact .waitForPut p c os locked
    next => cases h
  case nbPull =>
    split at h
    next p os => cases h; exact .nbPull p os
    next => cases h
  case reply =>
    split at h
    next p os => cases h; exact .reply p os
    next => cases h
  case kernel =>
    obtain ⟨k, sched, rfl⟩ := Option.map_eq_some_iff.mp h
    exact .kernel k sched
  case nbGet =>
    split at h
    next enabled => cases h; exact .nbGet enabled.1
    next => cases h
  case target r =>
    split at h
    next p call sysc =>
      split at h
      next phase => cases h; exact .target p call r sysc phase
      next => cases h
    next => cases h
  case nbPut =>
    split at h
    next p sysc =>
      split at h
      next => cases h; exact .nbPut p sysc
      next => cases h
    next => cases h
  case loop =>
    split at h
    next enabled => cases h; exact .loop enabled.1 enabled.2
    next => cases h
  case stop =>
    split at h
    next enabled => cases h; exact .stop enabled.1 enabled.2
    next => cases h

end Cosim

end ScCosim.Async
