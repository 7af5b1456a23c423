import ScCosim.Async.Stream
import ScCosim.Driver.SharedMemory
import ScCosim.Kernel.Linear

/-!
# The TCP transport

With `_TCP` each call of `sc_iowrite32` or `sc_ioread32` opens a connection: `send_data` sends
the packet and receives until a whole one is back. `async_os_thread` accepts one connection
after the other, receives a packet, serves it through the channel and sends it back. Here any
number of clients call at any time, and each `recv` of either side returns as many of the
bytes that are there as it likes. A packet is the bytes of the structure, of which the
padding and the time stamps may be anything; the backlog of the listening socket may be
longer than it is.
-/
namespace ScCosim.Async

/-- The enumerator's value, as stored in a packet. -/
def AsyncStatus.code : AsyncStatus → Byte
  | .incompleteResponse => 0
  | .okResponse => 1
  | .addressErrorResponse => 2
  | .genericErrorResponse => 3

namespace Tcp

/-- The layout with the field that only a reply has. -/
structure ReplyLayout extends Layout where
  status : Nat

def ReplyLayout.lp64 : ReplyLayout := { Layout.lp64 with status := 5 }

def ReplyLayout.statusByte (l : ReplyLayout) (packet : List Byte) : Byte := packet.getD l.status 0

def ReplyLayout.word (l : ReplyLayout) (packet : List Byte) : BitVec 32 :=
  BitVec.ofNat 32 (Kernel.Memory.value ((packet.drop l.data).take 4))

end Tcp

end ScCosim.Async

namespace ScCosim.Driver

open Kernel Async Firewall

/-! ### Connections -/

structure Conn where
  client : Nat
  /-- The call that opened it. -/
  access : Access
  /-- Sent and not yet received, to the server and back. -/
  up : List Byte
  down : List Byte
  clientClosed : Bool
  serverClosed : Bool

inductive CallerPc where
  /-- Between two calls. -/
  | ready
  /-- Connected, at `send`. -/
  | sending (c : Nat) (packet : List Byte)
  /-- In the loop around `recv`; the packet is still as it was sent. -/
  | receiving (c : Nat) (packet buffer : List Byte)
  /-- After `exit(-1)`. -/
  | gone
  deriving DecidableEq, Repr

inductive ListenerPc where
  | accept
  | receiving (c : Nat) (buffer : List Byte)
  /-- A packet is in `m_simple_packet`, of which `len` bytes have come in. -/
  | pushing (c : Nat) (packet : List Byte) (len : Nat)
  /-- From the push to `nb_pull`. -/
  | serving (c : Nat) (packet : List Byte) (len : Nat)
  /-- 'Missing response' -/
  | missing (c : Nat) (packet : List Byte) (len : Nat)
  | answering (c : Nat) (packet : List Byte) (len : Nat) (q : Ptr)
  /-- After `send`, before 'Exit if commanded'. -/
  | closing (c : Nat)
  /-- Past the loop. -/
  | left
  deriving DecidableEq, Repr

structure Net where
  conns : Nat → Conn
  next : Nat
  /-- Connections that the server has not accepted yet. -/
  backlog : List Nat
  clients : Nat → CallerPc
  server : ListenerPc
  cosim : Cosim
  /-- The connections whose request has been pushed, oldest first. Nothing reads it. -/
  served : List Nat
  /-- What the clients see of their calls: the status that they check, and for a read the
  value. Nothing reads it. -/
  events : List (Moment Nat (Byte × Option Word))

namespace Net

inductive Action where
  /-- A client fills in its packet and connects. -/
  | connect (i : Nat) (a : Access) (packet : List Byte)
  /-- 'could not connect to server' -/
  | refused (i : Nat)
  | send (i : Nat)
  | recv (i n : Nat)
  /-- `recv` returns zero. -/
  | recvEnd (i : Nat)
  | accept
  | serverRecv (n : Nat)
  /-- `recv` returns zero; `m_simple_packet` was something before. -/
  | serverEnd (before : List Byte)
  | push
  | nbPull
  | sendMissing (packet : List Byte)
  | answer (packet : List Byte)
  | close
  /-- A step inside the interface. -/
  | loops (a : Cosim.Action)
  deriving DecidableEq, Repr

def new : Net where
  conns := fun _ => ⟨0, .read 0, [], [], false, false⟩
  next := 0
  backlog := []
  clients := fun _ => .ready
  server := .accept
  cosim := Cosim.new
  served := []
  events := []

variable (l : Tcp.ReplyLayout)

/-! ### A client's call -/

def connect (s : Net) (i : Nat) (a : Access) (packet : List Byte) : Net :=
  { s with
    conns := Function.update s.conns s.next ⟨i, a, [], [], false, false⟩
    next := s.next + 1
    backlog := s.backlog ++ [s.next]
    clients := Function.update s.clients i (.sending s.next packet)
    events := s.events ++ [.started s.next] }

def send (s : Net) (i c : Nat) (packet : List Byte) : Net :=
  { s with
    conns := Function.update s.conns c { s.conns c with up := (s.conns c).up ++ packet }
    clients := Function.update s.clients i (.receiving c packet []) }

/-- The status is checked, and a read takes the data. -/
def heard (a : Access) (packet : List Byte) : Byte × Option Word :=
  (l.statusByte packet,
    match a with
    | .write _ => none
    | .read _ =>
      some (if l.statusByte packet ≠ AsyncStatus.okResponse.code then -1 else l.word packet))

/-- The loop is over and `shptr` holds this packet. -/
def finish (s : Net) (i c : Nat) (packet : List Byte) : Net :=
  { s with
    conns := Function.update s.conns c { s.conns c with clientClosed := true }
    clients := Function.update s.clients i .ready
    events := s.events ++ [.ended c (heard l (s.conns c).access packet)] }

/-- `recv` returns some of the bytes. -/
def takeDown (s : Net) (c n : Nat) : Net :=
  { s with
    conns := Function.update s.conns c { s.conns c with down := (s.conns c).down.drop n } }

def recv (s : Net) (i c n : Nat) (packet buffer : List Byte) : Net :=
  let buffer := buffer ++ (s.conns c).down.take n
  if buffer.length = l.size then (s.takeDown c n).finish l i c buffer
  else
    { s.takeDown c n with clients := Function.update s.clients i (.receiving c packet buffer) }

/-- A chunk that `recv` can return: asked for what is left of the 512 bytes, it has these. -/
def Chunk (buffer stream : List Byte) (n : Nat) : Prop :=
  0 < n ∧ n ≤ stream.length ∧ n ≤ Tcp.maxlen - buffer.length

instance (buffer stream : List Byte) (n : Nat) : Decidable (Chunk buffer stream n) :=
  inferInstanceAs (Decidable (_ ∧ _ ∧ _))

/-- `recv` returns zero when it is asked for nothing, or when the other side has closed and
everything has been received. -/
def Ends (buffer stream : List Byte) (closed : Bool) : Prop :=
  Tcp.maxlen ≤ buffer.length ∨ (stream = [] ∧ closed = true)

instance (buffer stream : List Byte) (closed : Bool) : Decidable (Ends buffer stream closed) :=
  inferInstanceAs (Decidable (_ ∨ _))

/-! ### The server -/

def serverRecv (s : Net) (c n : Nat) (buffer : List Byte) : Net :=
  let buffer := buffer ++ (s.conns c).up.take n
  { s with
    conns := Function.update s.conns c { s.conns c with up := (s.conns c).up.drop n }
    server :=
      if buffer.length = l.size then .pushing c buffer buffer.length else .receiving c buffer }

def push (s : Net) (c : Nat) (packet : List Byte) (len : Nat) (d : Cosim) : Net :=
  { s with cosim := d, server := .serving c packet len, served := s.served ++ [c] }

def pulled (s : Net) (c : Nat) (packet : List Byte) (len : Nat) (d : Cosim) : Net :=
  { s with
    cosim := d
    server :=
      match d.os with
      | .reply q => .answering c packet len q
      | _ => .missing c packet len }

/-- The packet with the status and, when that is OK, the data of the reply. -/
def Answer (r : AsyncStatus × List Byte) (packet answer : List Byte) : Prop :=
  answer.length = l.size ∧ l.statusByte answer = r.1.code ∧
    l.word answer = if r.1 = .okResponse then dataWord r.2 else l.word packet

instance (r : AsyncStatus × List Byte) (packet answer : List Byte) :
    Decidable (Answer l r packet answer) := inferInstanceAs (Decidable (_ ∧ _ ∧ _))

/-- `send(sock, buffer, len, 0)` -/
def reply (s : Net) (c len : Nat) (answer : List Byte) : Net :=
  { s with
    conns := Function.update s.conns c
      { s.conns c with down := (s.conns c).down ++ answer.take len } }

/-- 'Exit if commanded', or close the socket. -/
def close (s : Net) (c : Nat) (d : Cosim) : Net :=
  { s with
    cosim := d
    conns := Function.update s.conns c { s.conns c with serverClosed := true }
    server :=
      match d.os with
      | .closed => .left
      | _ => .accept }

/-! ### Steps -/

def step (s : Net) : Action → Option Net
  | .connect i a packet =>
    if s.clients i = .ready ∧ packet.length = l.size ∧ l.request packet = a.request then
      some (s.connect i a packet)
    else none
  | .refused i =>
    if s.clients i = .ready then some { s with clients := Function.update s.clients i .gone }
    else none
  | .send i =>
    match s.clients i with
    | .sending c packet => some (s.send i c packet)
    | _ => none
  | .recv i n =>
    match s.clients i with
    | .receiving c packet buffer =>
      if Chunk buffer (s.conns c).down n then some (s.recv l i c n packet buffer) else none
    | _ => none
  | .recvEnd i =>
    match s.clients i with
    | .receiving c packet buffer =>
      if Ends buffer (s.conns c).down (s.conns c).serverClosed then
        some (s.finish l i c ((buffer ++ packet.drop buffer.length).take l.size))
      else none
    | _ => none
  | .accept =>
    match s.server, s.backlog with
    | .accept, c :: rest => some { s with backlog := rest, server := .receiving c [] }
    | _, _ => none
  | .serverRecv n =>
    match s.server with
    | .receiving c buffer =>
      if Chunk buffer (s.conns c).up n then some (s.serverRecv l c n buffer) else none
    | _ => none
  | .serverEnd before =>
    match s.server with
    | .receiving c buffer =>
      if Ends buffer (s.conns c).up (s.conns c).clientClosed then
        some { s with
          server := .pushing c ((buffer ++ before.drop buffer.length).take l.size) buffer.length }
      else none
    | _ => none
  | .push =>
    match s.server with
    | .pushing c packet len =>
      (s.cosim.step (.accept (l.request packet))).map fun d => s.push c packet len d
    | _ => none
  | .nbPull =>
    match s.server with
    | .serving c packet len => (s.cosim.step .nbPull).map fun d => s.pulled c packet len d
    | _ => none
  | .sendMissing answer =>
    match s.server with
    | .missing c packet len =>
      if Answer l (.incompleteResponse, []) packet answer then
        some { s.reply c len answer with server := .accept }
      else none
    | _ => none
  | .answer answer =>
    match s.server with
    | .answering c packet len q =>
      if Answer l ((s.cosim.heap q).status, (s.cosim.heap q).data) packet answer then
        some { s.reply c len answer with server := .closing c }
      else none
    | _ => none
  | .close =>
    match s.server with
    | .closing c => (s.cosim.step .reply).map fun d => s.close c d
    | _ => none
  | .loops a =>
    if Shm.inside a then (s.cosim.step a).map fun d => { s with cosim := d } else none

def machine : Machine Net Action := ⟨new, step l⟩

/-- What a step can be. -/
inductive Transition (s : Net) : Action → Net → Prop
  | connect (i : Nat) (a : Access) (packet : List Byte) (client : s.clients i = .ready)
      (size : packet.length = l.size) (request : l.request packet = a.request) :
      Transition s (.connect i a packet) (s.connect i a packet)
  | refused (i : Nat) (client : s.clients i = .ready) :
      Transition s (.refused i) { s with clients := Function.update s.clients i .gone }
  | send (i c : Nat) (packet : List Byte) (client : s.clients i = .sending c packet) :
      Transition s (.send i) (s.send i c packet)
  | recv (i c n : Nat) (packet buffer : List Byte)
      (client : s.clients i = .receiving c packet buffer) (chunk : Chunk buffer (s.conns c).down n) :
      Transition s (.recv i n) (s.recv l i c n packet buffer)
  | recvEnd (i c : Nat) (packet buffer : List Byte)
      (client : s.clients i = .receiving c packet buffer)
      (ends : Ends buffer (s.conns c).down (s.conns c).serverClosed) :
      Transition s (.recvEnd i) (s.finish l i c ((buffer ++ packet.drop buffer.length).take l.size))
  | accept (c : Nat) (rest : List Nat) (server : s.server = .accept) (backlog : s.backlog = c :: rest) :
      Transition s .accept { s with backlog := rest, server := .receiving c [] }
  | serverRecv (c n : Nat) (buffer : List Byte) (server : s.server = .receiving c buffer)
      (chunk : Chunk buffer (s.conns c).up n) :
      Transition s (.serverRecv n) (s.serverRecv l c n buffer)
  | serverEnd (c : Nat) (buffer before : List Byte) (server : s.server = .receiving c buffer)
      (ends : Ends buffer (s.conns c).up (s.conns c).clientClosed) :
      Transition s (.serverEnd before) { s with
        server := .pushing c ((buffer ++ before.drop buffer.length).take l.size) buffer.length }
  | push (c : Nat) (packet : List Byte) (len : Nat) (d : Cosim)
      (server : s.server = .pushing c packet len)
      (cosim : Cosim.machine.step s.cosim (.accept (l.request packet)) = some d) :
      Transition s .push (s.push c packet len d)
  | nbPull (c : Nat) (packet : List Byte) (len : Nat) (d : Cosim)
      (server : s.server = .serving c packet len)
      (cosim : Cosim.machine.step s.cosim .nbPull = some d) :
      Transition s .nbPull (s.pulled c packet len d)
  | sendMissing (c : Nat) (packet answer : List Byte) (len : Nat)
      (server : s.server = .missing c packet len)
      (answers : Answer l (.incompleteResponse, []) packet answer) :
      Transition s (.sendMissing answer) { s.reply c len answer with server := .accept }
  | answer (c : Nat) (packet answer : List Byte) (len : Nat) (q : Ptr)
      (server : s.server = .answering c packet len q)
      (answers : Answer l ((s.cosim.heap q).status, (s.cosim.heap q).data) packet answer) :
      Transition s (.answer answer) { s.reply c len answer with server := .closing c }
  | close (c : Nat) (d : Cosim) (server : s.server = .closing c)
      (cosim : Cosim.machine.step s.cosim .reply = some d) : Transition s .close (s.close c d)
  | loops (a : Cosim.Action) (d : Cosim) (side : Shm.inside a = true)
      (cosim : Cosim.machine.step s.cosim a = some d) :
      Transition s (.loops a) { s with cosim := d }

variable {l}

theorem transition_of_step {s t : Net} {a : Action} (h : (machine l).step s a = some t) :
    Transition l s a t := by
  cases a <;> simp only [machine, step] at h
  case connect i a packet =>
    split at h
    next fits => cases h; exact .connect i a packet fits.1 fits.2.1 fits.2.2
    next => cases h
  case refused i =>
    split at h
    next client => cases h; exact .refused i client
    next => cases h
  case send i =>
    split at h
    next c packet client => cases h; exact .send i c packet client
    next => cases h
  case recv i n =>
    split at h
    next c packet buffer client =>
      split at h
      next chunk => cases h; exact .recv i c n packet buffer client chunk
      next => cases h
    next => cases h
  case recvEnd i =>
    split at h
    next c packet buffer client =>
      split at h
      next ends => cases h; exact .recvEnd i c packet buffer client ends
      next => cases h
    next => cases h
  case accept =>
    split at h
    next c rest server backlog => cases h; exact .accept c rest server backlog
    next => cases h
  case serverRecv n =>
    split at h
    next c buffer server =>
      split at h
      next chunk => cases h; exact .serverRecv c n buffer server chunk
      next => cases h
    next => cases h
  case serverEnd before =>
    split at h
    next c buffer server =>
      split at h
      next ends => cases h; exact .serverEnd c buffer before server ends
      next => cases h
    next => cases h
  case push =>
    split at h
    next c packet len server =>
      obtain ⟨d, cosim, rfl⟩ := Option.map_eq_some_iff.mp h
      exact .push c packet len d server cosim
    next => cases h
  case nbPull =>
    split at h
    next c packet len server =>
      obtain ⟨d, cosim, rfl⟩ := Option.map_eq_some_iff.mp h
      exact .nbPull c packet len d server cosim
    next => cases h
  case sendMissing answer =>
    split at h
    next c packet len server =>
      split at h
      next answers => cases h; exact .sendMissing c packet answer len server answers
      next => cases h
    next => cases h
  case answer answer =>
    split at h
    next c packet len q server =>
      split at h
      next answers => cases h; exact .answer c packet answer len q server answers
      next => cases h
    next => cases h
  case close =>
    split at h
    next c server =>
      obtain ⟨d, cosim, rfl⟩ := Option.map_eq_some_iff.mp h
      exact .close c d server cosim
    next => cases h
  case loops a =>
    split at h
    next side =>
      obtain ⟨d, cosim, rfl⟩ := Option.map_eq_some_iff.mp h
      exact .loops a d side cosim
    next => cases h

/-! ### The interface in a run -/

/-- The steps that the interface takes in a step of the whole. -/
def observed (s : Net) (a : Action) (_ : Net) : List Cosim.Action :=
  match a with
  | .push =>
    match s.server with
    | .pushing _ packet _ => [.accept (l.request packet)]
    | _ => []
  | .nbPull => [.nbPull]
  | .close => [.reply]
  | .loops b => [b]
  | _ => []

theorem observed_step {s t : Net} {a : Action} (hs : Transition l s a t) :
    Cosim.machine.run s.cosim (observed (l := l) s a t) = some t.cosim := by
  cases hs with
  | loops b d side cosim => simp [observed, cosim]
  | push c packet len d server cosim => simp [observed, server, cosim, push]
  | nbPull c packet len d server cosim => simp [observed, cosim, pulled]
  | close c d server cosim => simp [observed, cosim, close]
  | recv i c n packet buffer =>
    unfold recv
    dsimp only
    split <;> rfl
  | connect | refused | send | recvEnd | accept | serverRecv | serverEnd | sendMissing | answer => rfl

variable (l)

/-- The steps of the interface in a run. -/
def cosimRun (as : List Action) : List Cosim.Action :=
  (machine l).trace (observed (l := l)) new as

variable {l}

theorem cosimRun_run {s : Net} {as : List Action} (hr : (machine l).run new as = some s) :
    Cosim.machine.run Cosim.new (cosimRun l as) = some s.cosim :=
  Machine.run_trace (observed (l := l)) Net.cosim
    (fun _ _ _ hs => observed_step (transition_of_step hs)) hr

theorem cosim_reachable {s : Net} (h : (machine l).Reachable s) :
    Cosim.machine.Reachable s.cosim := by
  obtain ⟨as, hr⟩ := h
  exact ⟨_, cosimRun_run hr⟩

end Net

end ScCosim.Driver
