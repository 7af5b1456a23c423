import ScCosim.Kernel.Memory
import ScCosim.Async.Exchange
import ScCosim.Driver.Accesses

/-!
# The shared-memory transports

With `_SHM` or `_POSIX` the client and `async_os_thread` share one `simple_async_packet` and
two semaphores. `sc_iowrite32` and `sc_ioread32` assign the fields one by one, post
`sharedsemA` and wait for `sharedsemB`; the server does it the other way round, and in
between it serves the request through the channel. Here both sides are interleaved field
access by field access. The two transports differ in how they find the memory, which is left
out as are the time stamps; the server has taken both semaphores down to zero before it
starts its loop.
-/
namespace ScCosim.Driver

open Kernel Async Firewall

/-! ### The client's side -/

/-- An assignment to a field of the shared packet. -/
inductive Store where
  | id (n : Nat)
  | command (c : Byte)
  | status (st : AsyncStatus)
  | address (a : BitVec 32)
  | data (w : Word)
  deriving DecidableEq, Repr

def Store.perform (p : SimpleAsyncPacket) : Store → SimpleAsyncPacket
  | .id n => { p with id := n }
  | .command c => { p with command := c }
  | .status st => { p with status := st }
  | .address a => { p with address := a }
  | .data w => { p with data := w }

/-- The packet an access fills in. -/
def Access.packet (id : Nat) (a : Access) : SimpleAsyncPacket where
  id := id
  command := a.content.1
  status := .incompleteResponse
  address := a.content.2.1
  data := a.content.2.2

/-- The assignments of `sc_iowrite32` and `sc_ioread32`, in their order. -/
def Access.stores (id : Nat) (a : Access) : List Store :=
  [.id id, .command a.content.1, .status .incompleteResponse, .address a.content.2.1,
    .data a.content.2.2, .status .incompleteResponse]

/-- A write of this word is sent as `ASYNC_EXIT`, and nobody waits for a reply to it. -/
def Access.leaves : Access → Bool
  | .write w => !Transport.shm.waitsAfterWrite w.1
  | .read _ => false

/-- What a call makes of a reply: the status it checks, and for a read the value. -/
def Access.returns (a : Access) (r : Reply) : AsyncStatus × Option Word :=
  match a with
  | .write _ => (r.status, none)
  | .read _ => (r.status, some r.value)

inductive ClientPc where
  /-- Between two calls. -/
  | ready
  /-- Assigning fields; with none left, at `sem_post(sharedsemA)`. -/
  | storing (a : Access) (rest : List Store)
  /-- At `sem_wait(sharedsemB)`. -/
  | waiting (a : Access)
  /-- Reading the status. -/
  | checking (a : Access)
  /-- Reading the data, which only a read with status OK does. -/
  | loading (a : Access)
  deriving DecidableEq, Repr

/-! ### The server's side -/

inductive ServerPc where
  /-- At `sem_wait(sharedsemA)`. -/
  | waiting
  /-- Copying the data word. -/
  | copying
  /-- Making the channel's packet: the command and the address are arguments of one call, so
  that either may be read first. -/
  | making (data : Word) (command : Option Byte) (address : Option (BitVec 32))
  /-- From the push to `nb_pull`. -/
  | serving
  /-- 'Missing response' -/
  | missing
  /-- Writing the status. -/
  | answering (q : Ptr)
  /-- Writing the data. -/
  | copyingBack (q : Ptr)
  /-- At `sem_post(sharedsemB)`; without a packet the loop continues. -/
  | posting (q : Option Ptr)
  /-- Past the loop. -/
  | left
  deriving DecidableEq, Repr

/-- The word in the first four bytes. -/
def dataWord (bytes : List Byte) : Word := BitVec.ofNat 32 (Memory.value (bytes.take 4))

/-- A reply of the channel as it goes back to the client. -/
def replyOf (r : AsyncStatus × List Byte) : Reply := ⟨r.1, dataWord r.2⟩

def Access.request (a : Access) : Request := requestOf a.content

theorem leaves_iff_exit {a : Access} :
    a.leaves = true ↔ a.request.command = AsyncCommand.exit.code := by
  cases a with
  | read address => simp [Access.leaves, Access.request, requestOf, Access.content, AsyncCommand.code]
  | write w =>
    by_cases word : w.1 = 0x80000000 <;>
      simp [Access.leaves, Transport.waitsAfterWrite, Access.request, requestOf, Access.content,
        writeContent, AsyncCommand.code, word]

theorem stays_of_request {a : Access} (stays : a.request.command ≠ AsyncCommand.exit.code) :
    a.leaves = false :=
  Bool.eq_false_iff.mpr fun leaves => stays (leaves_iff_exit.mp leaves)

/-! ### Both sides -/

structure Shm where
  packet : SimpleAsyncPacket
  semA : Nat
  semB : Nat
  idCounter : Nat
  client : ClientPc
  server : ServerPc
  cosim : Cosim
  /-- The calls that have been started, oldest first. Nothing reads it. -/
  calls : List Access
  /-- What the calls that waited have returned. Nothing reads it. -/
  returned : List (AsyncStatus × Option Word)

namespace Shm

inductive Action where
  /-- The client starts a call. -/
  | call (a : Access)
  | client
  | loadCommand
  | loadAddress
  | server
  /-- A step inside the interface. -/
  | loops (a : Cosim.Action)
  deriving DecidableEq, Repr

def new : Shm where
  packet := ⟨0, 0, .incompleteResponse, 0, 0⟩
  semA := 0
  semB := 0
  idCounter := 0
  client := .ready
  server := .waiting
  cosim := Cosim.new
  calls := []
  returned := []

def call (s : Shm) (a : Access) : Shm :=
  { s with
    client := .storing a (a.stores s.idCounter)
    idCounter := s.idCounter + 1
    calls := s.calls ++ [a] }

/-- A call returns. -/
def finish (s : Shm) (a : Access) (r : Reply) : Shm :=
  { s with client := .ready, returned := s.returned ++ [a.returns r] }

def store (s : Shm) (a : Access) (w : Store) (rest : List Store) : Shm :=
  { s with packet := w.perform s.packet, client := .storing a rest }

/-- `sem_post(sharedsemA)`: a request to leave is not waited for. -/
def postA (s : Shm) (a : Access) : Shm :=
  { s with semA := s.semA + 1, client := if a.leaves then .ready else .waiting a }

def clientStep (s : Shm) : Option Shm :=
  match s.client with
  | .ready => none
  | .storing a (w :: rest) => some (s.store a w rest)
  | .storing a [] => some (s.postA a)
  | .waiting a =>
    if s.semB = 0 then none else some { s with semB := s.semB - 1, client := .checking a }
  | .checking a =>
    match a with
    | .read _ =>
      if s.packet.status ≠ .okResponse then some (s.finish a ⟨s.packet.status, 0⟩)
      else some { s with client := .loading a }
    | .write _ => some (s.finish a ⟨s.packet.status, 0⟩)
  | .loading a => some (s.finish a ⟨.okResponse, s.packet.data⟩)

def loadCommand (s : Shm) : Option Shm :=
  match s.server with
  | .making data none address =>
    some { s with server := .making data (some s.packet.command) address }
  | _ => none

def loadAddress (s : Shm) : Option Shm :=
  match s.server with
  | .making data command none =>
    some { s with server := .making data command (some s.packet.address) }
  | _ => none

/-- `nb_pull`, with the packet it yields. -/
def pulled (s : Shm) (c : Cosim) : Shm :=
  { s with
    cosim := c
    server :=
      match c.os with
      | .reply q => .answering q
      | _ => .missing }

/-- `m_shptr->status = async_trans_ptr->status`: only a packet with status OK has its data
copied. -/
def answer (s : Shm) (q : Ptr) : Shm :=
  { s with
    packet := { s.packet with status := (s.cosim.heap q).status }
    server := if (s.cosim.heap q).status = .okResponse then .copyingBack q else .posting (some q) }

def copyBack (s : Shm) (q : Ptr) : Shm :=
  { s with
    packet := { s.packet with data := dataWord (s.cosim.heap q).data }
    server := .posting (some q) }

/-- `sem_post(sharedsemB)`, then 'Exit if commanded'. -/
def postB (s : Shm) (c : Cosim) : Shm :=
  { s with
    semB := s.semB + 1
    cosim := c
    server :=
      match c.os with
      | .closed => .left
      | _ => .waiting }

def serverStep (s : Shm) : Option Shm :=
  match s.server with
  | .waiting => if s.semA = 0 then none else some { s with semA := s.semA - 1, server := .copying }
  | .copying => some { s with server := .making s.packet.data none none }
  | .making data (some command) (some address) =>
    (s.cosim.step (.accept ⟨command, address, wordBytes data⟩)).map fun c =>
      { s with cosim := c, server := .serving }
  | .making _ _ _ => none
  | .serving => (s.cosim.step .nbPull).map s.pulled
  | .missing =>
    some { s with packet := { s.packet with status := .incompleteResponse }, server := .posting none }
  | .answering q => some (s.answer q)
  | .copyingBack q => some (s.copyBack q)
  | .posting none => some { s with semB := s.semB + 1, server := .waiting }
  | .posting (some _) => (s.cosim.step .reply).map s.postB
  | .left => none

/-- The steps of the interface that touch the shared packet are the server's. -/
def inside : Cosim.Action → Bool
  | .accept _ | .nbPull | .reply => false
  | _ => true

def step (s : Shm) : Action → Option Shm
  | .call a => if s.client = .ready then some (s.call a) else none
  | .client => s.clientStep
  | .loadCommand => s.loadCommand
  | .loadAddress => s.loadAddress
  | .server => s.serverStep
  | .loops a =>
    if inside a then (s.cosim.step a).map fun c => { s with cosim := c } else none

def machine : Machine Shm Action := ⟨new, step⟩

/-- What a step can be. -/
inductive Transition (s : Shm) : Action → Shm → Prop
  | call (a : Access) (client : s.client = .ready) : Transition s (.call a) (s.call a)
  | store (a : Access) (w : Store) (rest : List Store) (client : s.client = .storing a (w :: rest)) :
      Transition s .client (s.store a w rest)
  | postA (a : Access) (client : s.client = .storing a []) : Transition s .client (s.postA a)
  | waitB (a : Access) (client : s.client = .waiting a) (posted : s.semB ≠ 0) :
      Transition s .client { s with semB := s.semB - 1, client := .checking a }
  | checked (a : Access) (client : s.client = .checking a)
      (plain : a.returns ⟨s.packet.status, 0⟩ = a.returns ⟨s.packet.status, s.packet.data⟩) :
      Transition s .client (s.finish a ⟨s.packet.status, 0⟩)
  | statusOk (a : Access) (client : s.client = .checking a) (ok : s.packet.status = .okResponse) :
      Transition s .client { s with client := .loading a }
  | loaded (a : Access) (client : s.client = .loading a) :
      Transition s .client (s.finish a ⟨.okResponse, s.packet.data⟩)
  | loadCommand (data : Word) (address : Option (BitVec 32)) (server : s.server = .making data none address) :
      Transition s .loadCommand { s with server := .making data (some s.packet.command) address }
  | loadAddress (data : Word) (command : Option Byte) (server : s.server = .making data command none) :
      Transition s .loadAddress { s with server := .making data command (some s.packet.address) }
  | waitA (server : s.server = .waiting) (posted : s.semA ≠ 0) :
      Transition s .server { s with semA := s.semA - 1, server := .copying }
  | copy (server : s.server = .copying) :
      Transition s .server { s with server := .making s.packet.data none none }
  | accept (data : Word) (command : Byte) (address : BitVec 32) (c : Cosim)
      (server : s.server = .making data (some command) (some address))
      (cosim : Cosim.machine.step s.cosim (.accept ⟨command, address, wordBytes data⟩) = some c) :
      Transition s .server { s with cosim := c, server := .serving }
  | nbPull (c : Cosim) (server : s.server = .serving)
      (cosim : Cosim.machine.step s.cosim .nbPull = some c) : Transition s .server (s.pulled c)
  | missing (server : s.server = .missing) :
      Transition s .server
        { s with packet := { s.packet with status := .incompleteResponse }, server := .posting none }
  | answer (q : Ptr) (server : s.server = .answering q) : Transition s .server (s.answer q)
  | copyBack (q : Ptr) (server : s.server = .copyingBack q) : Transition s .server (s.copyBack q)
  | postNothing (server : s.server = .posting none) :
      Transition s .server { s with semB := s.semB + 1, server := .waiting }
  | postB (q : Ptr) (c : Cosim) (server : s.server = .posting (some q))
      (cosim : Cosim.machine.step s.cosim .reply = some c) : Transition s .server (s.postB c)
  | loops (a : Cosim.Action) (c : Cosim) (side : inside a = true)
      (cosim : Cosim.machine.step s.cosim a = some c) : Transition s (.loops a) { s with cosim := c }

theorem transition_of_clientStep {s t : Shm} (h : s.clientStep = some t) : Transition s .client t := by
  unfold clientStep at h
  split at h
  case h_1 => cases h
  case h_2 a w rest client => cases h; exact .store a w rest client
  case h_3 a client => cases h; exact .postA a client
  case h_4 a client =>
    split at h
    next => cases h
    next posted => cases h; exact .waitB a client posted
  case h_5 a client =>
    split at h
    next address =>
      split at h
      next bad => cases h; exact .checked _ client (by simp [Access.returns, Reply.value, bad])
      next ok => cases h; exact .statusOk _ client (not_not.mp ok)
    next => cases h; exact .checked _ client rfl
  case h_6 a client => cases h; exact .loaded a client

theorem transition_of_serverStep {s t : Shm} (h : s.serverStep = some t) : Transition s .server t := by
  unfold serverStep at h
  split at h
  case h_1 server =>
    split at h
    next => cases h
    next posted => cases h; exact .waitA server posted
  case h_2 server => cases h; exact .copy server
  case h_3 data command address server =>
    obtain ⟨c, cosim, rfl⟩ := Option.map_eq_some_iff.mp h
    exact .accept data command address c server cosim
  case h_4 => cases h
  case h_5 server =>
    obtain ⟨c, cosim, rfl⟩ := Option.map_eq_some_iff.mp h
    exact .nbPull c server cosim
  case h_6 server => cases h; exact .missing server
  case h_7 q server => cases h; exact .answer q server
  case h_8 q server => cases h; exact .copyBack q server
  case h_9 server => cases h; exact .postNothing server
  case h_10 q server =>
    obtain ⟨c, cosim, rfl⟩ := Option.map_eq_some_iff.mp h
    exact .postB q c server cosim
  case h_11 => cases h

theorem transition_of_step {s t : Shm} {a : Action} (h : machine.step s a = some t) :
    Transition s a t := by
  cases a with
  | call a =>
    simp only [machine, step] at h
    split at h
    next client => cases h; exact .call a client
    next => cases h
  | client => exact transition_of_clientStep h
  | server => exact transition_of_serverStep h
  | loadCommand =>
    simp only [machine, step, loadCommand] at h
    split at h
    next data address server => cases h; exact .loadCommand data address server
    next => cases h
  | loadAddress =>
    simp only [machine, step, loadAddress] at h
    split at h
    next data command server => cases h; exact .loadAddress data command server
    next => cases h
  | loops a =>
    simp only [machine, step] at h
    split at h
    next side =>
      obtain ⟨c, cosim, rfl⟩ := Option.map_eq_some_iff.mp h
      exact .loops a c side cosim
    next => cases h

/-! ### The interface in a run -/

/-- The steps that the interface takes in a step of the whole. -/
def observed (s : Shm) (a : Action) (_ : Shm) : List Cosim.Action :=
  match a with
  | .loops b => [b]
  | .server =>
    match s.server with
    | .making data (some command) (some address) => [.accept ⟨command, address, wordBytes data⟩]
    | .serving => [.nbPull]
    | .posting (some _) => [.reply]
    | _ => []
  | _ => []

theorem observed_step {s t : Shm} {a : Action} (hs : Transition s a t) :
    Cosim.machine.run s.cosim (observed s a t) = some t.cosim := by
  cases hs with
  | loops b c side cosim => simp [observed, cosim]
  | accept data command address c server cosim => simp [observed, server, cosim]
  | nbPull c server cosim => simp [observed, server, cosim, pulled]
  | postB q c server cosim => simp [observed, server, cosim, postB]
  | waitA server | copy server | missing server | answer q server | copyBack q server
  | postNothing server => simp only [observed, server]; rfl
  | call | store | postA | waitB | checked | statusOk | loaded | loadCommand | loadAddress => rfl

/-- The steps of the interface in a run. -/
def cosimRun (as : List Action) : List Cosim.Action := machine.trace observed new as

theorem cosimRun_run {s : Shm} {as : List Action} (hr : machine.run new as = some s) :
    Cosim.machine.run Cosim.new (cosimRun as) = some s.cosim :=
  Machine.run_trace observed Shm.cosim (fun _ _ _ hs => observed_step (transition_of_step hs)) hr

theorem cosim_reachable {s : Shm} (h : machine.Reachable s) : Cosim.machine.Reachable s.cosim := by
  obtain ⟨as, hr⟩ := h
  exact ⟨_, cosimRun_run hr⟩

end Shm

end ScCosim.Driver
