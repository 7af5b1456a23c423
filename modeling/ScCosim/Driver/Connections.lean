import ScCosim.Driver.Network

/-!
# One connection after the other

Every connection is in one stage: it waits in the backlog, its request is coming in, is
whole, is inside, or its reply has been sent. A step is at one connection and leaves the
stages of the others alone. Here are the steps of the clients: nothing but the bytes of its
own reply ever comes back to one of them, and none is left without its whole reply.
-/
namespace ScCosim.Driver

open Kernel Async Firewall

/-- The connection of a call and the packet that it sends. -/
def CallerPc.call : CallerPc → Option (Nat × List Byte)
  | .sending c packet | .receiving c packet _ => some (c, packet)
  | .ready | .gone => none

def CallerPc.conn (pc : CallerPc) : Option Nat := pc.call.map Prod.fst

/-- The connection that has been accepted and not answered. -/
def ListenerPc.conn : ListenerPc → Option Nat
  | .receiving c _ | .pushing c _ _ | .serving c _ _ | .missing c _ _ | .answering c _ _ _ => some c
  | .accept | .closing _ | .left => none

/-- The status that a call checks, and for a read the value. -/
def Access.told (a : Access) (r : Reply) : Byte × Option Word :=
  ((a.returns r).1.code, (a.returns r).2)

namespace Net

variable {l : Tcp.ReplyLayout} {s t : Net}

/-! ### One connection -/

/-- Where the client is that has opened a connection. -/
def caller (s : Net) (c : Nat) : CallerPc := s.clients (s.conns c).client

/-- The client has sent these bytes, and nothing has come back. -/
structure Asks (s : Net) (c : Nat) (sent : List Byte) : Prop where
  caller : (∃ packet, s.caller c = .sending c packet ∧ sent = []) ∨ s.caller c = .receiving c sent []
  down : (s.conns c).down = []
  clientClosed : (s.conns c).clientClosed = false
  serverClosed : (s.conns c).serverClosed = false

/-- The answer is that of the channel to the request of the connection. -/
def Told (l : Tcp.ReplyLayout) (s : Net) (c : Nat) (answer : List Byte) : Prop :=
  ∃ (k : Nat) (r : AsyncStatus × List Byte), s.served[k]? = some c ∧ s.cosim.replies[k]? = some r ∧
    l.statusByte answer = r.1.code ∧ (r.1 = .okResponse → l.word answer = dataWord r.2)

inductive Stage (l : Tcp.ReplyLayout) (s : Net) (c : Nat) : Prop
  | queued (backlog : c ∈ s.backlog) (server : s.server.conn ≠ some c)
      (asks : s.Asks c (s.conns c).up) (unserved : c ∉ s.served)
  | arriving (buffer : List Byte) (server : s.server = .receiving c buffer)
      (short : buffer.length < l.size) (asks : s.Asks c (buffer ++ (s.conns c).up))
      (backlog : c ∉ s.backlog) (unserved : c ∉ s.served)
  | whole (packet : List Byte) (server : s.server = .pushing c packet l.size)
      (size : packet.length = l.size) (asks : s.Asks c packet) (backlog : c ∉ s.backlog)
      (unserved : c ∉ s.served)
  | inside (packet : List Byte)
      (server : s.server = .serving c packet l.size ∨ ∃ q, s.server = .answering c packet l.size q)
      (size : packet.length = l.size) (asks : s.Asks c packet) (backlog : c ∉ s.backlog)
      (served : c ∈ s.served)
  | replied (answer : List Byte) (told : s.Told l c answer) (size : answer.length = l.size)
      (server : s.server.conn ≠ some c) (backlog : c ∉ s.backlog) (served : c ∈ s.served)
      (rest : (s.caller c).conn = some c → ∃ packet buffer, s.caller c = .receiving c packet buffer ∧
        buffer ++ (s.conns c).down = answer ∧ buffer.length < l.size)

/-- The client's packet is the request of the call that it is in. -/
structure Fits (l : Tcp.ReplyLayout) (s : Net) (i c : Nat) (packet : List Byte) : Prop where
  known : c < s.next
  client : (s.conns c).client = i
  size : packet.length = l.size
  request : l.request packet = (s.conns c).access.request

/-- What the channel has of the server, and of the requests pushed so far. -/
inductive ServerAt (cosim : Cosim) (served : List Nat) : ListenerPc → Prop
  | accept (os : cosim.os = .accept) (even : cosim.replies.length = served.length) :
      ServerAt cosim served .accept
  | receiving (c : Nat) (buffer : List Byte) (os : cosim.os = .accept)
      (even : cosim.replies.length = served.length) : ServerAt cosim served (.receiving c buffer)
  | pushing (c : Nat) (packet : List Byte) (len : Nat) (os : cosim.os = .accept)
      (even : cosim.replies.length = served.length) : ServerAt cosim served (.pushing c packet len)
  | serving (c : Nat) (packet : List Byte) (len : Nat) (before : List Nat) (os : cosim.Serving)
      (last : served = before ++ [c]) (even : cosim.replies.length = before.length) :
      ServerAt cosim served (.serving c packet len)
  | answering (c : Nat) (packet : List Byte) (len : Nat) (q : Ptr) (before : List Nat)
      (answers : List (AsyncStatus × List Byte)) (os : cosim.os = .reply q)
      (pulled : (q, (cosim.heap q).status) ∈ cosim.record.pulled) (last : served = before ++ [c])
      (even : answers.length = before.length)
      (replies : cosim.replies = answers ++ [((cosim.heap q).status, (cosim.heap q).data)]) :
      ServerAt cosim served (.answering c packet len q)
  | closing (c : Nat) (q : Ptr) (os : cosim.os = .reply q) (member : c ∈ served)
      (even : cosim.replies.length = served.length) : ServerAt cosim served (.closing c)

/-- The requests that have been replied to, with what their calls make of the replies. -/
def order (s : Net) : List (Nat × (Byte × Option Word)) :=
  (s.served.zip s.cosim.replies).map fun w => (w.1, (s.conns w.1).access.told (replyOf w.2))

structure Inv (l : Tcp.ReplyLayout) (s : Net) : Prop where
  stage : ∀ c < s.next, s.Stage l c
  fits : ∀ i c packet, (s.clients i).call = some (c, packet) → s.Fits l i c packet
  server : ServerAt s.cosim s.served s.server
  known : ∀ c, s.server.conn = some c → c < s.next
  backlog : s.backlog.Nodup ∧ ∀ c ∈ s.backlog, c < s.next
  served : s.served.Nodup ∧ ∀ c ∈ s.served, c < s.next
  accepted : s.cosim.record.accepted.map Prod.fst = s.served.map fun c => (s.conns c).access.request
  stays : ∀ w ∈ s.served.zip s.cosim.replies, (s.conns w.1).access.leaves = false
  started : ∀ c < s.next, .started c ∈ s.events
  linear : Linear s.events s.order

theorem inv_new : Inv l new where
  stage c known := absurd known (Nat.not_lt_zero c)
  fits i c packet call := by cases call
  server := .accept rfl rfl
  known c conn := by cases conn
  backlog := ⟨List.nodup_nil, by simp [new]⟩
  served := ⟨List.nodup_nil, by simp [new]⟩
  accepted := rfl
  stays w member := by cases member
  started c known := absurd known (Nat.not_lt_zero c)
  linear := linear_nil

/-! ### What a step leaves alone -/

theorem longer_of_same {α : Type} {xs ys : List α} (same : ys = xs) : xs <+: ys :=
  same ▸ List.prefix_rfl

theorem getElem?_of_longer {α : Type} {xs ys : List α} {k : Nat} {a : α} (longer : xs <+: ys)
    (at_ : xs[k]? = some a) : ys[k]? = some a := by
  obtain ⟨rest, rfl⟩ := longer
  rw [List.getElem?_append_left (List.getElem?_eq_some_iff.mp at_).1]
  exact at_

/-- What is known of an answer stays known. -/
theorem Told.mono {c : Nat} {answer : List Byte} (h : s.Told l c answer)
    (served : s.served <+: t.served) (replies : s.cosim.replies <+: t.cosim.replies) :
    t.Told l c answer := by
  obtain ⟨k, r, asked, answered, status, word⟩ := h
  exact ⟨k, r, getElem?_of_longer served asked, getElem?_of_longer replies answered, status, word⟩

/-- A step at another connection. -/
structure Same (s t : Net) (c : Nat) : Prop where
  conn : t.conns c = s.conns c
  caller : t.caller c = s.caller c ∨ ((s.caller c).conn ≠ some c ∧ (t.caller c).conn ≠ some c)
  server : t.server = s.server ∨ (s.server.conn ≠ some c ∧ t.server.conn ≠ some c)
  backlog : c ∈ t.backlog ↔ c ∈ s.backlog
  served : c ∈ t.served ↔ c ∈ s.served
  longer : s.served <+: t.served
  replies : s.cosim.replies <+: t.cosim.replies

theorem Asks.same {c : Nat} {sent : List Byte} (h : s.Asks c sent) (same : s.Same t c) :
    t.Asks c sent := by
  obtain ⟨caller, down, clientClosed, serverClosed⟩ := h
  refine ⟨?_, by rw [same.conn]; exact down, by rw [same.conn]; exact clientClosed,
    by rw [same.conn]; exact serverClosed⟩
  rcases same.caller with still | ⟨elsewhere, -⟩
  · rw [still]
    exact caller
  · refine absurd ?_ elsewhere
    rcases caller with ⟨packet, sending, -⟩ | receiving
    · rw [sending]; rfl
    · rw [receiving]; rfl

theorem Stage.same {c : Nat} (h : s.Stage l c) (same : s.Same t c) : t.Stage l c := by
  have stays : ∀ {pc : ListenerPc}, pc.conn = some c → s.server = pc → t.server = pc := by
    rintro pc conn rfl
    exact same.server.resolve_right fun elsewhere => elsewhere.1 conn
  have away : s.server.conn ≠ some c → t.server.conn ≠ some c := by
    intro free
    rcases same.server with still | ⟨-, elsewhere⟩
    · rw [still]
      exact free
    · exact elsewhere
  cases h with
  | queued backlog server asks unserved =>
    refine .queued (same.backlog.mpr backlog) (away server) ?_ (mt same.served.mp unserved)
    rw [same.conn]
    exact asks.same same
  | arriving buffer server short asks backlog unserved =>
    refine .arriving buffer (stays rfl server) short ?_ (mt same.backlog.mp backlog)
      (mt same.served.mp unserved)
    rw [same.conn]
    exact asks.same same
  | whole packet server size asks backlog unserved =>
    exact .whole packet (stays rfl server) size (asks.same same) (mt same.backlog.mp backlog)
      (mt same.served.mp unserved)
  | inside packet server size asks backlog served =>
    refine .inside packet ?_ size (asks.same same) (mt same.backlog.mp backlog)
      (same.served.mpr served)
    rcases server with serving | ⟨q, answering⟩
    · exact Or.inl (stays rfl serving)
    · exact Or.inr ⟨q, stays rfl answering⟩
  | replied answer told size server backlog served rest =>
    refine .replied answer (told.mono same.longer same.replies) size (away server)
      (mt same.backlog.mp backlog) (same.served.mpr served) ?_
    rcases same.caller with still | ⟨-, elsewhere⟩
    · rw [still, same.conn]
      exact rest
    · exact fun here => absurd here elsewhere

/-- Connections are opened and never change hands. -/
structure Grows (s t : Net) : Prop where
  next : s.next ≤ t.next
  client : ∀ c < s.next, (t.conns c).client = (s.conns c).client
  access : ∀ c < s.next, (t.conns c).access = (s.conns c).access

theorem Fits.grows {i c : Nat} {packet : List Byte} (h : s.Fits l i c packet) (grows : s.Grows t) :
    t.Fits l i c packet :=
  ⟨h.known.trans_le grows.next, (grows.client c h.known).trans h.client, h.size,
    by rw [grows.access c h.known]; exact h.request⟩

/-- A change of one connection. -/
theorem grows_update {c : Nat} {conn : Conn} (conns : t.conns = Function.update s.conns c conn)
    (next : t.next = s.next) (client : conn.client = (s.conns c).client)
    (access : conn.access = (s.conns c).access) : s.Grows t := by
  refine ⟨next.ge, fun d _ => ?_, fun d _ => ?_⟩ <;> rw [conns, Function.update_apply]
  · split
    · next here => rw [here, client]
    · rfl
  · split
    · next here => rw [here, access]
    · rfl

theorem grows_same (conns : t.conns = s.conns) (next : t.next = s.next) : s.Grows t :=
  ⟨next.ge, fun c _ => by rw [conns], fun c _ => by rw [conns]⟩

theorem fst_zip_within {α β : Type} (xs : List α) (ys : List β) : (xs.zip ys).map Prod.fst <+: xs := by
  induction xs generalizing ys with
  | nil => simp
  | cons x xs ih =>
    cases ys with
    | nil => simp
    | cons y ys => exact List.cons_prefix_cons.mpr ⟨rfl, ih ys⟩

theorem order_within (s : Net) : s.order.map Prod.fst <+: s.served := by
  rw [order, List.map_map]
  exact fst_zip_within s.served s.cosim.replies

theorem zip_longer {α β : Type} {xs xs' : List α} {ys ys' : List β} (h : xs <+: xs') (h' : ys <+: ys')
    (even : ys.length ≤ xs.length) : xs.zip ys <+: xs'.zip ys' := by
  obtain ⟨more, rfl⟩ := h
  obtain ⟨more', rfl⟩ := h'
  induction ys generalizing xs with
  | nil => simp
  | cons y ys ih =>
    obtain _ | ⟨x, xs⟩ := xs
    · simp at even
    · exact List.cons_prefix_cons.mpr ⟨rfl, ih (by simpa using even)⟩

theorem ServerAt.even {pc : ListenerPc} {cosim : Cosim} {served : List Nat}
    (h : ServerAt cosim served pc) : cosim.replies.length ≤ served.length := by
  cases h with
  | accept os even | receiving c buffer os even | pushing c packet len os even
  | closing c q os member even => exact even.le
  | serving c packet len before os last even => simp [last, even]
  | answering c packet len q before answers os pulled last even replies => simp [last, even, replies]

theorem code_okResponse {r : AsyncStatus} :
    r.code = AsyncStatus.okResponse.code ↔ r = .okResponse := by
  cases r <;> decide

/-- The client makes of the answer what the call makes of the reply. -/
theorem told_order {c : Nat} {answer : List Byte} (h : s.Told l c answer) :
    (c, heard l (s.conns c).access answer) ∈ s.order := by
  obtain ⟨k, r, asked, answered, status, word⟩ := h
  have same : heard l (s.conns c).access answer = (s.conns c).access.told (replyOf r) := by
    unfold heard Access.told
    cases (s.conns c).access with
    | write w => simp [Access.returns, replyOf, status]
    | read address =>
      by_cases ok : r.1 = .okResponse
      · simp [Access.returns, replyOf, Reply.value, status, ok, word ok]
      · simp [Access.returns, replyOf, Reply.value, status, ok, code_okResponse]
  rw [same]
  refine List.mem_map.mpr ⟨(c, r), List.mem_of_getElem? (i := k) ?_, rfl⟩
  rw [List.getElem?_zip_eq_some]
  exact ⟨asked, answered⟩

/-- Nothing of the order is taken back. -/
theorem Inv.order_longer (h : s.Inv l) (grows : s.Grows t) (served : s.served <+: t.served)
    (replies : s.cosim.replies <+: t.cosim.replies) : s.order <+: t.order := by
  have same : s.order =
      (s.served.zip s.cosim.replies).map fun w => (w.1, (t.conns w.1).access.told (replyOf w.2)) := by
    refine List.map_congr_left fun w member => ?_
    rw [grows.access _ (h.served.2 _ (List.of_mem_zip member).1)]
  rw [same]
  exact (zip_longer served replies h.server.even).map _

/-- No call that has been replied to leaves. -/
theorem Inv.stays_grows (h : s.Inv l) (grows : s.Grows t) (served : s.served <+: t.served)
    (replies : t.cosim.replies = s.cosim.replies) :
    ∀ w ∈ t.served.zip t.cosim.replies, (t.conns w.1).access.leaves = false := by
  have same : s.served.zip s.cosim.replies = t.served.zip t.cosim.replies := by
    rw [replies]
    refine List.IsPrefix.eq_of_length (zip_longer served List.prefix_rfl h.server.even) ?_
    rw [List.length_zip, List.length_zip, Nat.min_eq_right h.server.even,
      Nat.min_eq_right (h.server.even.trans served.length_le)]
  intro w member
  rw [← same] at member
  rw [grows.access _ (h.served.2 _ (List.of_mem_zip member).1)]
  exact h.stays w member

theorem Inv.accepted_grows (h : s.Inv l) (grows : s.Grows t) :
    (s.served.map fun c => (t.conns c).access.request) =
      s.cosim.record.accepted.map Prod.fst := by
  rw [h.accepted]
  exact List.map_congr_left fun c member => by rw [grows.access c (h.served.2 c member)]

/-! ### The clients -/

/-- A step of client `i`, in a call over `c`. -/
structure ByClient (s t : Net) (i c : Nat) : Prop where
  grows : s.Grows t
  others : ∀ j, j ≠ i → t.clients j = s.clients j
  before : ∀ d, (s.clients i).conn = some d → d = c
  after : ∀ d, (t.clients i).conn = some d → d = c
  conns : ∀ d, d ≠ c → t.conns d = s.conns d
  backlog : ∀ d, d ≠ c → (d ∈ t.backlog ↔ d ∈ s.backlog)
  server : t.server = s.server
  cosim : t.cosim = s.cosim
  served : t.served = s.served

theorem ByClient.same {i c d : Nat} (step : s.ByClient t i c) (other : d ≠ c) : s.Same t d := by
  refine ⟨step.conns d other, ?_, Or.inl step.server, step.backlog d other, by rw [step.served],
    longer_of_same step.served, longer_of_same (by rw [step.cosim])⟩
  unfold caller
  rw [step.conns d other]
  by_cases own : (s.conns d).client = i
  · rw [own]
    exact Or.inr ⟨fun at_ => other (step.before d at_), fun at_ => other (step.after d at_)⟩
  · exact Or.inl (step.others _ own)

theorem Inv.byClient {i c : Nat} (h : s.Inv l) (step : s.ByClient t i c)
    (stage : c < t.next → t.Stage l c) (old : ∀ d < t.next, d ≠ c → d < s.next)
    (fits : ∀ packet, (t.clients i).call = some (c, packet) → t.Fits l i c packet)
    (backlog : t.backlog.Nodup ∧ ∀ d ∈ t.backlog, d < t.next)
    (started : ∀ d < t.next, .started d ∈ t.events) (linear : Linear t.events s.order) : t.Inv l := by
  have same : t.order = s.order := by
    refine List.IsPrefix.eq_of_length ?_ ?_ |>.symm
    · exact h.order_longer step.grows (longer_of_same step.served)
        (longer_of_same (by rw [step.cosim]))
    · simp only [order, List.length_map, List.length_zip, step.served, step.cosim]
  refine ⟨fun d known => ?_, fun j d packet call => ?_, ?_, fun d conn => ?_, backlog, ?_, ?_, ?_, started,
    ?_⟩
  · by_cases here : d = c
    · rw [here] at known ⊢
      exact stage known
    · exact (h.stage d (old d known here)).same (step.same here)
  · by_cases own : j = i
    · rw [own] at call ⊢
      obtain rfl : d = c := step.after d (by rw [CallerPc.conn, call]; rfl)
      exact fits packet call
    · rw [step.others j own] at call
      exact (h.fits j d packet call).grows step.grows
  · rw [step.server, step.cosim, step.served]
    exact h.server
  · rw [step.server] at conn
    exact (h.known d conn).trans_le step.grows.next
  · rw [step.served]
    exact ⟨h.served.1, fun d member => (h.served.2 d member).trans_le step.grows.next⟩
  · rw [step.served, step.cosim]
    exact (h.accepted_grows step.grows).symm
  · exact h.stays_grows step.grows (longer_of_same step.served) (by rw [step.cosim])
  · rw [same]
    exact linear

theorem Inv.unserved_next (h : s.Inv l) : s.next ∉ s.order.map Prod.fst :=
  fun member => Nat.lt_irrefl _ (h.served.2 _ ((order_within s).subset member))

theorem inv_connect (h : s.Inv l) {i : Nat} {a : Access} {packet : List Byte}
    (client : s.clients i = .ready) (size : packet.length = l.size)
    (request : l.request packet = a.request) : (s.connect i a packet).Inv l := by
  have grows : s.Grows (s.connect i a packet) := by
    refine ⟨Nat.le_succ _, fun c known => ?_, fun c known => ?_⟩ <;>
      simp [connect, Function.update_of_ne known.ne]
  refine h.byClient (i := i) (c := s.next) ⟨grows, ?_, ?_, ?_, ?_, ?_, rfl, rfl, rfl⟩ ?_ ?_ ?_ ?_ ?_ ?_
  · exact fun j other => Function.update_of_ne other _ _
  · intro d at_
    rw [client] at at_
    cases at_
  · intro d at_
    simpa [connect, CallerPc.conn, CallerPc.call, eq_comm] using at_
  · exact fun d other => Function.update_of_ne other _ _
  · intro d other
    simp [connect, other]
  · -- the new connection is in the backlog
    intro _
    refine .queued (by simp [connect]) (fun conn => Nat.lt_irrefl _ (h.known _ conn)) ?_
      (fun member => Nat.lt_irrefl _ (h.served.2 _ member))
    refine ⟨Or.inl ⟨packet, ?_, ?_⟩, ?_, ?_, ?_⟩ <;> simp [caller, connect]
  · intro d known other
    exact Nat.lt_of_le_of_ne (Nat.lt_succ_iff.mp known) other
  · intro p call
    obtain rfl : packet = p := by simpa [connect, CallerPc.call] using call
    exact ⟨Nat.lt_succ_self _, by simp [connect], size, by simp [connect, request]⟩
  · obtain ⟨nodup, known⟩ := h.backlog
    refine ⟨?_, fun d member => ?_⟩
    · simp only [connect, List.nodup_append, List.nodup_singleton, true_and, nodup]
      rintro d member e single rfl
      rw [List.mem_singleton.mp single] at member
      exact Nat.lt_irrefl _ (known _ member)
    · rcases List.mem_append.mp member with old | new
      · exact (known d old).trans (Nat.lt_succ_self _)
      · rw [List.mem_singleton.mp new]
        exact Nat.lt_succ_self _
  · intro d known
    rcases Nat.lt_succ_iff_lt_or_eq.mp known with old | rfl
    · exact List.mem_append_left _ (h.started d old)
    · simp [connect]
  · exact h.linear.start h.unserved_next

theorem inv_refused (h : s.Inv l) {i : Nat} (client : s.clients i = .ready) :
    Inv l { s with clients := Function.update s.clients i .gone } := by
  refine h.byClient (i := i) (c := s.next)
    ⟨grows_same rfl rfl, ?_, ?_, ?_, fun _ _ => rfl, fun _ _ => Iff.rfl, rfl, rfl, rfl⟩
    (fun known => absurd known (Nat.lt_irrefl _)) (fun _ known _ => known) ?_ h.backlog h.started
    h.linear
  · exact fun j other => Function.update_of_ne other _ _
  · intro d at_
    rw [client] at at_
    cases at_
  · intro d at_
    simp [CallerPc.conn, CallerPc.call] at at_
  · intro p call
    simp [CallerPc.call] at call

/-- The client of a connection is where it has opened it. -/
theorem Fits.caller {i c : Nat} {packet : List Byte} (h : s.Fits l i c packet) :
    s.caller c = s.clients i := by
  rw [Net.caller, h.client]

theorem inv_send (h : s.Inv l) {i c : Nat} {packet : List Byte}
    (client : s.clients i = .sending c packet) : (s.send i c packet).Inv l := by
  have fits := h.fits i c packet (by rw [client]; rfl)
  have caller := fits.caller.trans client
  have grows : s.Grows (s.send i c packet) := grows_update rfl rfl rfl rfl
  have after : (s.send i c packet).caller c = .receiving c packet [] := by
    simp [Net.caller, send, fits.client]
  -- nothing has been sent so far, so the connection is at the beginning
  have asks {sent : List Byte} (old : s.Asks c sent) :
      sent = [] ∧ (s.send i c packet).Asks c packet := by
    refine ⟨?_, Or.inr after, ?_, ?_, ?_⟩
    · rcases old.caller with ⟨p, -, none⟩ | receiving
      · exact none
      · rw [caller] at receiving
        cases receiving
    · simpa [send] using old.down
    · simpa [send] using old.clientClosed
    · simpa [send] using old.serverClosed
  have up : ((s.send i c packet).conns c).up = (s.conns c).up ++ packet := by simp [send]
  refine h.byClient (i := i) (c := c)
    ⟨grows, ?_, ?_, ?_, ?_, fun _ _ => Iff.rfl, rfl, rfl, rfl⟩ (fun known => ?_) (fun _ known _ => known)
    ?_ h.backlog h.started h.linear
  · exact fun j other => Function.update_of_ne other _ _
  · intro d at_
    rw [client] at at_
    exact (Option.some.inj at_).symm
  · intro d at_
    simpa [send, CallerPc.conn, CallerPc.call, eq_comm] using at_
  · exact fun d other => Function.update_of_ne other _ _
  · cases h.stage c known with
    | queued backlog server asks' unserved =>
      obtain ⟨none, asked⟩ := asks asks'
      refine .queued backlog server ?_ unserved
      rw [up, none]
      exact asked
    | arriving buffer server short asks' backlog unserved =>
      obtain ⟨none, asked⟩ := asks asks'
      refine .arriving buffer server short ?_ backlog unserved
      rw [up, ← List.append_assoc, none]
      exact asked
    | whole p server size asks' | inside p server size asks' =>
      obtain ⟨rfl, -⟩ := asks asks'
      have := l.command_lt
      simp only [List.length_nil] at size
      omega
    | replied answer told size server backlog served rest =>
      obtain ⟨p, buffer, receiving, -⟩ := rest (by rw [caller]; rfl)
      rw [caller] at receiving
      cases receiving
  · intro p call
    obtain rfl : packet = p := by simpa [send, CallerPc.call] using call
    exact fits.grows grows

/-- The call is over with its whole answer. -/
theorem inv_finish (h : s.Inv l) {i c n : Nat} {packet buffer answer : List Byte}
    (client : s.clients i = .receiving c packet buffer) (told : s.Told l c answer)
    (backlog : c ∉ s.backlog) (served : c ∈ s.served) (server : s.server.conn ≠ some c)
    (size : answer.length = l.size) : ((s.takeDown c n).finish l i c answer).Inv l := by
  have fits := h.fits i c packet (by rw [client]; rfl)
  have conns : ((s.takeDown c n).finish l i c answer).conns = Function.update s.conns c
      { s.conns c with down := (s.conns c).down.drop n, clientClosed := true } := by
    simp [finish, takeDown]
  have grows : s.Grows ((s.takeDown c n).finish l i c answer) := grows_update conns rfl rfl rfl
  refine h.byClient (i := i) (c := c)
    ⟨grows, ?_, ?_, ?_, ?_, fun _ _ => Iff.rfl, rfl, rfl, rfl⟩ (fun known => ?_) (fun _ known _ => known)
    ?_ h.backlog ?_ ?_
  · exact fun j other => Function.update_of_ne other _ _
  · intro d at_
    rw [client] at at_
    exact (Option.some.inj at_).symm
  · intro d at_
    simp [finish, CallerPc.conn, CallerPc.call] at at_
  · intro d other
    rw [conns]
    exact Function.update_of_ne other _ _
  · refine .replied answer told size server backlog served fun at_ => ?_
    simp [Net.caller, finish, takeDown, fits.client, CallerPc.conn, CallerPc.call] at at_
  · intro p call
    simp [finish, CallerPc.call] at call
  · exact fun d known => List.mem_append_left _ (h.started d known)
  · have same : ((s.takeDown c n).conns c).access = (s.conns c).access := by simp [takeDown]
    simp only [finish, same]
    exact h.linear.finish (told_order told)

/-- Whoever has received or can receive something is being replied to. -/
theorem Stage.replied_of_receiving {i c : Nat} {packet buffer : List Byte} (h : s.Stage l c)
    (fits : s.Fits l i c packet) (client : s.clients i = .receiving c packet buffer)
    (some : buffer ≠ [] ∨ (s.conns c).down ≠ [] ∨ (s.conns c).serverClosed = true) :
    ∃ answer, s.Told l c answer ∧ answer.length = l.size ∧ s.server.conn ≠ .some c ∧
      c ∉ s.backlog ∧ c ∈ s.served ∧ buffer ++ (s.conns c).down = answer ∧
      buffer.length < l.size := by
  have caller := fits.caller.trans client
  have asking {sent : List Byte} (asks : s.Asks c sent) : False := by
    rcases asks.caller with ⟨p, sending, -⟩ | receiving
    · rw [caller] at sending
      cases sending
    · rw [caller] at receiving
      cases receiving
      simp [asks.down, asks.serverClosed] at some
  cases h with
  | queued _ _ asks | arriving _ _ _ asks | whole _ _ _ asks | inside _ _ _ asks =>
    exact (asking asks).elim
  | replied answer told size server backlog served rest =>
    obtain ⟨p, b, receiving, whole, short⟩ := rest (by rw [caller]; rfl)
    rw [caller] at receiving
    cases receiving
    exact ⟨answer, told, size, server, backlog, served, whole, short⟩

theorem inv_recv (h : s.Inv l) {i c n : Nat} {packet buffer : List Byte}
    (client : s.clients i = .receiving c packet buffer) (chunk : Chunk buffer (s.conns c).down n) :
    (s.recv l i c n packet buffer).Inv l := by
  have fits := h.fits i c packet (by rw [client]; rfl)
  obtain ⟨positive, there, -⟩ := chunk
  have there' : (s.conns c).down ≠ [] := by
    intro none
    rw [none, List.length_nil] at there
    omega
  obtain ⟨answer, told, size, server, backlog, served, whole, short⟩ :=
    (h.stage c fits.known).replied_of_receiving fits client (Or.inr (Or.inl there'))
  have split : buffer ++ (s.conns c).down.take n ++ (s.conns c).down.drop n = answer := by
    rw [List.append_assoc, List.take_append_drop, whole]
  unfold recv
  dsimp only
  split
  · next complete =>
    have all : buffer ++ (s.conns c).down.take n = answer :=
      List.IsPrefix.eq_of_length ⟨_, split⟩ (complete.trans size.symm)
    rw [all]
    exact inv_finish h client told backlog served server size
  · next more =>
    have few : (buffer ++ (s.conns c).down.take n).length < l.size := by
      refine Nat.lt_of_le_of_ne ?_ more
      rw [← size, ← split]
      exact (List.prefix_append _ _).length_le
    refine h.byClient (i := i) (c := c)
      ⟨grows_update rfl rfl rfl rfl, ?_, ?_, ?_, ?_, fun _ _ => Iff.rfl, rfl, rfl, rfl⟩ (fun known => ?_)
      (fun _ known _ => known) ?_ h.backlog h.started h.linear
    · exact fun j other => Function.update_of_ne other _ _
    · intro d at_
      rw [client] at at_
      exact (Option.some.inj at_).symm
    · intro d at_
      simpa [takeDown, CallerPc.conn, CallerPc.call, eq_comm] using at_
    · exact fun d other => Function.update_of_ne other _ _
    · refine .replied answer told size server backlog served fun _ => ⟨packet, _, ?_, ?_, few⟩
      · simp [Net.caller, takeDown, fits.client]
      · simpa [takeDown] using split
    · intro p call
      obtain rfl : packet = p := by simpa [takeDown, CallerPc.call] using call
      exact fits.grows (grows_update rfl rfl rfl rfl)

/-- No client is left without its whole answer. -/
theorem Inv.not_recvEnd (h : s.Inv l) {i c : Nat} {packet buffer : List Byte}
    (client : s.clients i = .receiving c packet buffer) :
    ¬ Ends buffer (s.conns c).down (s.conns c).serverClosed := by
  have fits := h.fits i c packet (by rw [client]; rfl)
  have size_le := l.size_le
  intro ends
  have some : buffer ≠ [] ∨ (s.conns c).down ≠ [] ∨ (s.conns c).serverClosed = true := by
    rcases ends with full | ⟨-, closed⟩
    · refine Or.inl fun none => ?_
      rw [none] at full
      simp [Tcp.maxlen] at full
    · exact Or.inr (Or.inr closed)
  obtain ⟨answer, -, size, -, -, -, whole, short⟩ :=
    (h.stage c fits.known).replied_of_receiving fits client some
  rcases ends with full | ⟨none, -⟩
  · simp only [Tcp.maxlen] at full
    omega
  · rw [none, List.append_nil] at whole
    rw [whole] at short
    omega

end Net

end ScCosim.Driver
