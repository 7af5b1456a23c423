import ScCosim.Driver.Connections
import ScCosim.Driver.Handoff

/-!
# Each client gets its own reply

The server has one connection at a time. So no request is torn or cut short, requests and
replies stay in the order in which the server pushes them, and a call that starts after
another one has ended is served after it. For the clients the calls take effect one by one.
-/
namespace ScCosim.Driver

open Kernel Async Firewall

namespace Net

variable {l : Tcp.ReplyLayout} {s t : Net}

/-! ### The server -/

/-- A step of the server at connection `c`, or of the interface behind it. -/
structure ByServer (s t : Net) (c : Nat) : Prop where
  grows : s.Grows t
  clients : t.clients = s.clients
  next : t.next = s.next
  events : t.events = s.events
  before : ∀ d, s.server.conn = some d → d = c
  after : ∀ d, t.server.conn = some d → d = c
  conns : ∀ d, d ≠ c → t.conns d = s.conns d
  backlog : ∀ d, d ≠ c → (d ∈ t.backlog ↔ d ∈ s.backlog)
  fewer : t.backlog.Sublist s.backlog
  served : t.served = s.served ∨ (t.served = s.served ++ [c] ∧ c ∉ s.served)
  replies : s.cosim.replies <+: t.cosim.replies

theorem ByServer.same {c d : Nat} (step : s.ByServer t c) (other : d ≠ c) : s.Same t d := by
  have served : (d ∈ t.served ↔ d ∈ s.served) ∧ s.served <+: t.served := by
    rcases step.served with still | ⟨pushed, -⟩
    · rw [still]
      exact ⟨Iff.rfl, List.prefix_rfl⟩
    · rw [pushed]
      exact ⟨by simp [other], List.prefix_append _ _⟩
  refine ⟨step.conns d other, Or.inl ?_, Or.inr ⟨?_, ?_⟩, step.backlog d other, served.1, served.2,
    step.replies⟩
  · rw [caller, caller, step.conns d other, step.clients]
  · exact fun at_ => other (step.before d at_)
  · exact fun at_ => other (step.after d at_)

theorem Inv.byServer {c : Nat} (h : s.Inv l) (step : s.ByServer t c) (known : c < s.next)
    (stage : t.Stage l c) (server : ServerAt t.cosim t.served t.server)
    (accepted : t.cosim.record.accepted.map Prod.fst =
      t.served.map fun c => (t.conns c).access.request)
    (stays : t.cosim.replies = s.cosim.replies ∨
      ∀ w ∈ t.served.zip t.cosim.replies, (t.conns w.1).access.leaves = false) : t.Inv l := by
  have longer : s.served <+: t.served := by
    rcases step.served with still | ⟨pushed, -⟩
    · exact longer_of_same still
    · rw [pushed]
      exact List.prefix_append _ _
  have served : t.served.Nodup ∧ ∀ d ∈ t.served, d < t.next := by
    rw [step.next]
    rcases step.served with still | ⟨pushed, unserved⟩
    · rw [still]
      exact h.served
    · rw [pushed]
      refine ⟨h.served.1.append (List.nodup_singleton c) (by simpa using unserved), fun d member => ?_⟩
      rcases List.mem_append.mp member with old | new
      · exact h.served.2 d old
      · rw [List.mem_singleton.mp new]
        exact known
  have started : ∀ d < t.next, .started d ∈ t.events := by
    rw [step.next, step.events]
    exact h.started
  refine ⟨fun d known' => ?_, fun i d packet call => ?_, server, fun d conn => ?_, ?_, served, accepted,
    stays.elim (h.stays_grows step.grows longer) id, started, ?_⟩
  · by_cases here : d = c
    · rw [here]
      exact stage
    · rw [step.next] at known'
      exact (h.stage d known').same (step.same here)
  · rw [step.clients] at call
    exact (h.fits i d packet call).grows step.grows
  · rw [step.after d conn, step.next]
    exact known
  · rw [step.next]
    exact ⟨h.backlog.1.sublist step.fewer, fun d member => h.backlog.2 d (step.fewer.subset member)⟩
  · have ordered := order_within t
    rw [step.events]
    refine h.linear.more (h.order_longer step.grows longer step.replies)
      (served.1.sublist ordered.sublist) fun d member => ?_
    rw [← step.events]
    exact started d (served.2 d (ordered.subset member))

theorem inv_accept (h : s.Inv l) {c : Nat} {rest : List Nat} (server : s.server = .accept)
    (backlog : s.backlog = c :: rest) :
    Inv l { s with backlog := rest, server := .receiving c [] } := by
  have nodup := h.backlog.1
  rw [backlog] at nodup
  obtain ⟨notMember, -⟩ := List.nodup_cons.mp nodup
  have queued : c ∈ s.backlog := by simp [backlog]
  have known := h.backlog.2 c queued
  have at_ := h.server
  rw [server] at at_
  cases at_ with
  | accept os even =>
    refine h.byServer (c := c) ⟨grows_same rfl rfl, rfl, rfl, rfl, ?_, ?_, fun _ _ => rfl, ?_, ?_,
      Or.inl rfl, List.prefix_rfl⟩ known ?_ (.receiving c [] os even) h.accepted (Or.inl rfl)
    · intro d conn
      rw [server] at conn
      cases conn
    · exact fun d conn => (Option.some.inj conn).symm
    · intro d other
      simp [backlog, other]
    · rw [backlog]
      exact List.sublist_cons_self c rest
    · cases h.stage c known with
      | queued _ _ asks unserved =>
        exact .arriving [] rfl (by have := l.command_lt; simp only [List.length_nil]; omega)
          ⟨asks.caller, asks.down, asks.clientClosed, asks.serverClosed⟩ notMember unserved
      | arriving _ _ _ _ absent | whole _ _ _ _ absent | inside _ _ _ _ absent
      | replied _ _ _ _ absent => exact absurd queued absent

/-- The stage of the connection that is being received from. -/
theorem Inv.receiving (h : s.Inv l) {c : Nat} {buffer : List Byte}
    (server : s.server = .receiving c buffer) :
    buffer.length < l.size ∧ s.Asks c (buffer ++ (s.conns c).up) ∧ c ∉ s.backlog ∧ c ∉ s.served := by
  have conn : s.server.conn = some c := by rw [server]; rfl
  cases h.stage c (h.known c conn) with
  | arriving b at_ short asks backlog unserved =>
    rw [server] at at_
    cases at_
    exact ⟨short, asks, backlog, unserved⟩
  | queued _ away | replied _ _ _ away => exact absurd conn away
  | whole p at_ =>
    rw [server] at at_
    cases at_
  | inside p at_ => rcases at_ with at_ | ⟨q, at_⟩ <;> rw [server] at at_ <;> cases at_

/-- What a client sends is one packet. -/
theorem Inv.sent_size (h : s.Inv l) {c : Nat} {sent : List Byte} (asks : s.Asks c sent)
    (some : sent ≠ []) : sent.length = l.size := by
  rcases asks.caller with ⟨p, -, none⟩ | receiving
  · exact absurd none some
  · exact (h.fits _ c sent (by rw [← Net.caller, receiving]; rfl)).size

/-- The server receives at most what has been sent. -/
theorem inv_serverRecv (h : s.Inv l) {c n : Nat} {buffer : List Byte}
    (server : s.server = .receiving c buffer) (chunk : Chunk buffer (s.conns c).up n) :
    (s.serverRecv l c n buffer).Inv l := by
  obtain ⟨short, asks, backlog, unserved⟩ := h.receiving server
  have known : c < s.next := h.known c (by rw [server]; rfl)
  obtain ⟨positive, there, -⟩ := chunk
  have there' : buffer ++ (s.conns c).up ≠ [] := by
    intro none
    rw [(List.append_eq_nil_iff.mp none).2, List.length_nil] at there
    omega
  have size := h.sent_size asks there'
  have split : buffer ++ (s.conns c).up.take n ++ (s.conns c).up.drop n = buffer ++ (s.conns c).up := by
    rw [List.append_assoc, List.take_append_drop]
  have grows : s.Grows (s.serverRecv l c n buffer) := grows_update rfl rfl rfl rfl
  have asks' : (s.serverRecv l c n buffer).Asks c (buffer ++ (s.conns c).up) := by
    refine ⟨?_, ?_, ?_, ?_⟩
    · simpa [Net.caller, serverRecv] using asks.caller
    · simpa [serverRecv] using asks.down
    · simpa [serverRecv] using asks.clientClosed
    · simpa [serverRecv] using asks.serverClosed
  have up : ((s.serverRecv l c n buffer).conns c).up = (s.conns c).up.drop n := by simp [serverRecv]
  have at_ := h.server
  rw [server] at at_
  cases at_ with
  | receiving _ _ os even =>
    refine h.byServer (c := c) ⟨grows, rfl, rfl, rfl, ?_, ?_, ?_, fun _ _ => Iff.rfl,
      List.Sublist.refl _, Or.inl rfl, List.prefix_rfl⟩ known ?_ ?_ (h.accepted_grows grows).symm (Or.inl rfl)
    · intro d conn
      rw [server] at conn
      exact (Option.some.inj conn).symm
    · intro d conn
      simp only [serverRecv] at conn
      split at conn <;> exact (Option.some.inj conn).symm
    · exact fun d other => Function.update_of_ne other _ _
    · by_cases complete : (buffer ++ (s.conns c).up.take n).length = l.size
      · have all : buffer ++ (s.conns c).up.take n = buffer ++ (s.conns c).up :=
          List.IsPrefix.eq_of_length ⟨_, split⟩ (complete.trans size.symm)
        refine .whole _ ?_ complete ?_ backlog unserved
        · simp only [serverRecv, if_pos complete]
          rw [complete]
        · rw [all]
          exact asks'
      · refine .arriving (buffer ++ (s.conns c).up.take n) (by simp only [serverRecv, if_neg complete])
          ?_ ?_ backlog unserved
        · refine Nat.lt_of_le_of_ne ?_ complete
          rw [← size, ← split]
          exact (List.prefix_append _ _).length_le
        · rw [up, split]
          exact asks'
    · simp only [serverRecv]
      split
      · exact .pushing _ _ _ os even
      · exact .receiving _ _ os even

/-- No request is cut short. -/
theorem Inv.not_serverEnd (h : s.Inv l) {c : Nat} {buffer : List Byte}
    (server : s.server = .receiving c buffer) :
    ¬ Ends buffer (s.conns c).up (s.conns c).clientClosed := by
  obtain ⟨short, asks, -, -⟩ := h.receiving server
  have size_le := l.size_le
  rintro (full | ⟨-, closed⟩)
  · simp only [Tcp.maxlen] at full
    omega
  · rw [asks.clientClosed] at closed
    cases closed

theorem Inv.pushing (h : s.Inv l) {c len : Nat} {packet : List Byte}
    (server : s.server = .pushing c packet len) :
    len = l.size ∧ packet.length = l.size ∧ s.Asks c packet ∧ c ∉ s.backlog ∧ c ∉ s.served := by
  have conn : s.server.conn = some c := by rw [server]; rfl
  cases h.stage c (h.known c conn) with
  | whole p at_ size asks backlog unserved =>
    rw [server] at at_
    cases at_
    exact ⟨rfl, size, asks, backlog, unserved⟩
  | queued _ away | replied _ _ _ away => exact absurd conn away
  | arriving p at_ =>
    rw [server] at at_
    cases at_
  | inside p at_ => rcases at_ with at_ | ⟨q, at_⟩ <;> rw [server] at at_ <;> cases at_

/-- The request that is pushed is that of the call. -/
theorem Inv.request_pushing (h : s.Inv l) {c len : Nat} {packet : List Byte}
    (server : s.server = .pushing c packet len) :
    l.request packet = (s.conns c).access.request := by
  obtain ⟨-, size, asks, -, -⟩ := h.pushing server
  have command_lt := l.command_lt
  rcases asks.caller with ⟨p, -, none⟩ | receiving
  · rw [none, List.length_nil] at size
    omega
  · exact (h.fits _ c packet (by rw [← Net.caller, receiving]; rfl)).request

theorem inv_push (h : s.Inv l) {c len : Nat} {packet : List Byte} {d : Cosim}
    (reachable : Cosim.machine.Reachable s.cosim) (server : s.server = .pushing c packet len)
    (cosim : Cosim.machine.step s.cosim (.accept (l.request packet)) = some d) :
    (s.push c packet len d).Inv l := by
  obtain ⟨rfl, size, asks, backlog, unserved⟩ := h.pushing server
  have request := h.request_pushing server
  have known : c < s.next := h.known c (by rw [server]; rfl)
  have transition := Cosim.transition_of_step cosim
  have replies : d.replies = s.cosim.replies := Cosim.replies_of_step reachable transition (by simp)
  have at_ := h.server
  rw [server] at at_
  cases at_ with
  | pushing _ _ _ os even =>
    refine h.byServer (c := c) ⟨grows_same rfl rfl, rfl, rfl, rfl, ?_, ?_, fun _ _ => rfl,
      fun _ _ => Iff.rfl, List.Sublist.refl _, Or.inr ⟨rfl, unserved⟩, ?_⟩ known ?_ ?_ ?_ (Or.inl replies)
    · intro e conn
      rw [server] at conn
      exact (Option.some.inj conn).symm
    · exact fun e conn => (Option.some.inj conn).symm
    · exact longer_of_same replies
    · exact .inside packet (Or.inl rfl) size
        ⟨asks.caller, asks.down, asks.clientClosed, asks.serverClosed⟩ backlog (by simp [push])
    · refine .serving c packet l.size s.served ?_ rfl (by rw [← even, ← replies]; rfl)
      cases transition with
      | accept r => exact ⟨_, Or.inl rfl⟩
    · cases transition with
      | accept r =>
        have accepted := h.accepted
        simp only [push, Cosim.accept, Cosim.alloc, List.map_append, accepted, List.map_cons, List.map_nil,
          request]

theorem inv_nbPull (h : s.Inv l) {c len : Nat} {packet : List Byte} {d : Cosim}
    (reachable : Cosim.machine.Reachable s.cosim) (server : s.server = .serving c packet len)
    (cosim : Cosim.machine.step s.cosim .nbPull = some d) : (s.pulled c packet len d).Inv l := by
  obtain ⟨q, os, heap, accepted, member, replies, r, last', stays⟩ := Cosim.nbPull_step reachable cosim
  have known : c < s.next := h.known c (by rw [server]; rfl)
  have conn : s.server.conn = some c := by rw [server]; rfl
  have after : (s.pulled c packet len d).server = .answering c packet len q := by simp [pulled, os]
  have at_ := h.server
  rw [server] at at_
  cases at_ with
  | serving _ _ _ before _ last even =>
    refine h.byServer (c := c) ⟨grows_same rfl rfl, rfl, rfl, rfl, ?_, ?_, fun _ _ => rfl,
      fun _ _ => Iff.rfl, List.Sublist.refl _, Or.inl rfl, ?_⟩ known ?_ ?_ ?_ (Or.inr ?_)
    · intro e conn'
      rw [conn] at conn'
      exact (Option.some.inj conn').symm
    · intro e conn'
      rw [after] at conn'
      exact (Option.some.inj conn').symm
    · exact ⟨_, replies.symm⟩
    · cases h.stage c known with
      | inside p at_ size asks backlog served =>
        rw [server] at at_
        obtain ⟨rfl, rfl⟩ : packet = p ∧ len = l.size := by simpa using at_
        exact .inside packet (Or.inr ⟨q, after⟩) size
          ⟨asks.caller, asks.down, asks.clientClosed, asks.serverClosed⟩ backlog served
      | queued _ away | replied _ _ _ away => exact absurd conn away
      | whole p at_ | arriving p at_ =>
        rw [server] at at_
        cases at_
    · rw [after]
      refine .answering c packet len q before s.cosim.replies os ?_ last even ?_
      · simpa only [pulled, heap] using member
      · simpa only [pulled, heap] using replies
    · exact (congrArg (List.map Prod.fst) accepted).trans h.accepted
    · -- the call that is replied to is the one accepted last
      intro w pair
      have pair : w ∈ (before ++ [c]).zip (s.cosim.replies ++ [((s.cosim.heap q).status, (s.cosim.heap q).data)]) := by
        rw [← last, ← replies]
        exact pair
      rw [List.zip_append even.symm] at pair
      rcases List.mem_append.mp pair with old | new
      · refine h.stays w ((zip_longer ⟨[c], last.symm⟩ List.prefix_rfl even.le).subset old)
      · have request : (s.conns c).access.request = r := by
          have whole := congrArg List.getLast? h.accepted
          rw [List.getLast?_map, last', last] at whole
          simpa using whole.symm
        rw [List.mem_singleton.mp new]
        exact stays_of_request (request ▸ stays)

theorem ServerAt.not_missing {cosim : Cosim} {served : List Nat} {c len : Nat} {packet : List Byte} :
    ¬ ServerAt cosim served (.missing c packet len) := by
  intro h
  cases h

theorem inv_answer (h : s.Inv l) {c len : Nat} {packet answer : List Byte} {q : Ptr}
    (server : s.server = .answering c packet len q)
    (answers : Answer l ((s.cosim.heap q).status, (s.cosim.heap q).data) packet answer) :
    Inv l { s.reply c len answer with server := .closing c } := by
  obtain ⟨length, status, word⟩ := answers
  have conn : s.server.conn = some c := by rw [server]; rfl
  have known : c < s.next := h.known c conn
  have at_ := h.server
  rw [server] at at_
  cases at_ with
  | answering _ _ _ _ before replied os pulled last even replies =>
    have grows : s.Grows { s.reply c len answer with server := .closing c } :=
      grows_update rfl rfl rfl rfl
    refine h.byServer (c := c) ⟨grows, rfl, rfl, rfl, ?_, ?_, ?_, fun _ _ => Iff.rfl,
      List.Sublist.refl _, Or.inl rfl, List.prefix_rfl⟩ known ?_ ?_ (h.accepted_grows grows).symm (Or.inl rfl)
    · intro e conn'
      rw [conn] at conn'
      exact (Option.some.inj conn').symm
    · intro e conn'
      cases conn'
    · exact fun e other => Function.update_of_ne other _ _
    · cases h.stage c known with
      | inside p at_ size asks backlog served =>
        rw [server] at at_
        obtain ⟨rfl, rfl⟩ : packet = p ∧ len = l.size := by simpa using at_
        have all : answer.take l.size = answer := by rw [← length, List.take_length]
        refine .replied answer ⟨before.length, ((s.cosim.heap q).status, (s.cosim.heap q).data), ?_, ?_,
          status, fun ok => word.trans (if_pos ok)⟩ length (by simp [ListenerPc.conn]) backlog served fun _ => ?_
        · simp [reply, last]
        · simp [reply, replies, even]
        · rcases asks.caller with ⟨p, -, none⟩ | receiving
          · have command_lt := l.command_lt
            rw [none, List.length_nil] at size
            omega
          · refine ⟨packet, [], ?_, ?_, ?_⟩
            · simpa [Net.caller, reply] using receiving
            · simp [reply, asks.down, all]
            · have command_lt := l.command_lt
              simp only [List.length_nil]
              omega
      | queued _ away | replied _ _ _ away => exact absurd conn away
      | whole p at_ | arriving p at_ =>
        rw [server] at at_
        cases at_
    · refine .closing c q os ?_ ?_
      · simp [reply, last]
      · simp [reply, replies, even, last]

/-- The server goes back to `accept`; it never leaves its loop. -/
theorem inv_close (h : s.Inv l) {c : Nat} {d : Cosim} (reachable : Cosim.machine.Reachable s.cosim)
    (server : s.server = .closing c) (cosim : Cosim.machine.step s.cosim .reply = some d) :
    (s.close c d).Inv l := by
  have transition := Cosim.transition_of_step cosim
  have same : d.replies = s.cosim.replies := Cosim.replies_of_step reachable transition (by simp)
  have accepted := Cosim.accepted_of_step transition (by simp)
  have next : d.os = .accept := by
    have open' := Cosim.never_closed (reachable.step cosim)
    cases transition with
    | reply p os =>
      simp only [Cosim.reply] at open' ⊢
      split at open'
      · exact absurd rfl open'
      · next stays => rw [if_neg stays]
  have after : (s.close c d).server = .accept := by simp [close, next]
  have grows : s.Grows (s.close c d) := grows_update rfl rfl rfl rfl
  have at_ := h.server
  rw [server] at at_
  cases at_ with
  | closing _ q os member even =>
    have known := h.served.2 c member
    refine h.byServer (c := c) ⟨grows, rfl, rfl, rfl, ?_, ?_, ?_, fun _ _ => Iff.rfl,
      List.Sublist.refl _, Or.inl rfl, longer_of_same same⟩ known ?_ ?_ ?_
      (Or.inl same)
    · intro e conn
      rw [server] at conn
      cases conn
    · intro e conn
      rw [after] at conn
      cases conn
    · exact fun e other => Function.update_of_ne other _ _
    · cases h.stage c known with
      | replied answer told size away backlog served rest =>
        refine .replied answer (told.mono List.prefix_rfl (longer_of_same same)) size
          (by simp [after, ListenerPc.conn]) backlog served ?_
        simpa [Net.caller, close] using rest
      | queued _ _ _ absent | arriving _ _ _ _ _ absent | whole _ _ _ _ _ absent =>
        exact absurd member absent
      | inside p at_ => rcases at_ with at_ | ⟨q', at_⟩ <;> rw [server] at at_ <;> cases at_
    · rw [after]
      exact .accept next ((congrArg List.length same).trans even)
    · exact (congrArg (List.map Prod.fst) accepted).trans (h.accepted_grows grows).symm

/-- The interface goes on beside the server. -/
theorem ServerAt.beside {pc : ListenerPc} {cosim d : Cosim} {served : List Nat}
    (h : ServerAt cosim served pc) (beside : Shm.Beside cosim d) : ServerAt d served pc := by
  have same := beside.replies
  cases h with
  | accept os even => exact .accept (beside.accept os) (by rw [same, even])
  | receiving c buffer os even => exact .receiving c buffer (beside.accept os) (by rw [same, even])
  | pushing c packet len os even => exact .pushing c packet len (beside.accept os) (by rw [same, even])
  | serving c packet len before os last even =>
    exact .serving c packet len before (beside.serving os) last (by rw [same, even])
  | answering c packet len q before answers os pulled last even replies =>
    have heap := beside.heap _ pulled
    refine .answering c packet len q before answers (beside.reply q os) ?_ last even ?_
    · simpa only [beside.pulled, heap] using pulled
    · simpa only [same, heap] using replies
  | closing c q os member even => exact .closing c q (beside.reply q os) member (by rw [same, even])

theorem inv_beside (h : s.Inv l) {d : Cosim} (beside : Shm.Beside s.cosim d) :
    Inv l { s with cosim := d } := by
  have longer : s.cosim.replies <+: d.replies := longer_of_same beside.replies
  have grows : s.Grows { s with cosim := d } := grows_same rfl rfl
  refine ⟨fun c known => ?_, fun i c packet call => (h.fits i c packet call).grows grows,
    h.server.beside beside, h.known, h.backlog, h.served, ?_,
    h.stays_grows grows List.prefix_rfl beside.replies, h.started, ?_⟩
  · exact (h.stage c known).same ⟨rfl, Or.inl rfl, Or.inl rfl, Iff.rfl, Iff.rfl, List.prefix_rfl, longer⟩
  · exact (congrArg (List.map Prod.fst) beside.accepted).trans h.accepted
  · have same : order { s with cosim := d } = s.order := by
      simp only [order, beside.replies]
    rw [same]
    exact h.linear

/-! ### Every step and every run -/

theorem inv_step {a : Action} (h : s.Inv l) (reachable : Cosim.machine.Reachable s.cosim)
    (hs : Transition l s a t) : t.Inv l := by
  cases hs with
  | connect i a packet client size request => exact inv_connect h client size request
  | refused i client => exact inv_refused h client
  | send i c packet client => exact inv_send h client
  | recv i c n packet buffer client chunk => exact inv_recv h client chunk
  | recvEnd i c packet buffer client ends => exact absurd ends (h.not_recvEnd client)
  | accept c rest server backlog => exact inv_accept h server backlog
  | serverRecv c n buffer server chunk => exact inv_serverRecv h server chunk
  | serverEnd c buffer before server ends => exact absurd ends (h.not_serverEnd server)
  | push c packet len d server cosim => exact inv_push h reachable server cosim
  | nbPull c packet len d server cosim => exact inv_nbPull h reachable server cosim
  | sendMissing c packet answer len server => exact absurd (server ▸ h.server) ServerAt.not_missing
  | answer c packet answer len q server answers => exact inv_answer h server answers
  | close c d server cosim => exact inv_close h reachable server cosim
  | loops b d side cosim => exact inv_beside h (Shm.beside_of_inside reachable side cosim)

theorem inv_reachable (h : (machine l).Reachable s) : s.Inv l := by
  have both : Cosim.machine.Reachable s.cosim ∧ s.Inv l := by
    refine h.invariant (I := fun s => Cosim.machine.Reachable s.cosim ∧ s.Inv l)
      ⟨Cosim.machine.reachable_init, inv_new⟩ ?_
    rintro s a t ⟨reachable, inv⟩ hs
    have transition := transition_of_step hs
    exact ⟨reachable.run (observed_step transition), inv_step inv reachable transition⟩
  exact both.2

/-- Whatever the order of the steps and whatever the sizes of the chunks, any number of
clients calling at once: the target has been called with the requests of the calls served, one
by one, and the calls that have ended are linear in that order, each with what the target has
left for it. -/
theorem calls_are_linear {as : List Action} (hr : (machine l).run new as = some s) :
    (Cosim.callsOf (cosimRun l as)).map TargetCall.presented <+:
        payloads .ignore (s.served.map fun c => (s.conns c).access.request) ∧
      Linear s.events ((s.served.zip ((Cosim.callsOf (cosimRun l as)).map TargetCall.returned)).map
        fun w => (w.1, (s.conns w.1).access.told (replyOf w.2))) := by
  have inv : s.Inv l := inv_reachable ⟨as, hr⟩
  have presented := Cosim.presented_accepted (cosimRun_run hr)
  have replies := Cosim.replies_returned (cosimRun_run hr)
  rw [inv.accepted] at presented
  refine ⟨presented, inv.linear.more ((zip_longer List.prefix_rfl replies inv.server.even).map _) ?_ ?_⟩
  · rw [List.map_map]
    exact inv.served.1.sublist (fst_zip_within s.served _).sublist
  · intro c member
    rw [List.map_map] at member
    exact inv.started c (inv.served.2 c ((fst_zip_within s.served _).subset member))

/-- The bytes of a packet with this status and this data. -/
def bytesOf (a : Access) (status : Byte) (data : Firewall.Word) : List Byte :=
  [0, 0, 0, 0, a.content.1, status, 0, 0] ++ wordBytes a.content.2.1 ++ List.replicate 20 0 ++
    wordBytes data ++ List.replicate 100 0

def within (as : List Cosim.Action) : List Action := as.map .loops

def oneWrite : Access := .write (0x12340007, 0x40)

def oneRead : Access := .read 0x40

/-- A write and a read at once, in five chunks. -/
def twoClients : List Action :=
  [.loops .loop, .connect 0 oneWrite (bytesOf oneWrite 0 0x12340007), .connect 1 oneRead (bytesOf oneRead 0 0),
    .send 1, .send 0, .accept, .serverRecv 100, .serverRecv 36, .push] ++
    within [.push, .kernel, .kernel, .kernel, .kernel, .nbGet, .target ⟨.ok, [7, 0, 0x34, 0x12]⟩,
      .nbPut, .loop, .waitForPut] ++
    [.nbPull, .answer (bytesOf oneWrite 1 0x12340007), .recv 0 136, .close, .accept,
      .serverRecv 136, .push] ++
    within [.push, .kernel, .kernel, .kernel, .kernel, .nbGet, .target ⟨.ok, [7, 0, 0x34, 0x12]⟩,
      .nbPut, .loop, .waitForPut] ++
    [.nbPull, .answer (bytesOf oneRead 1 0x12340007), .recv 1 40, .close, .recv 1 96]

def afterTwoClients : Net := ((machine .lp64).run new twoClients).getD new

theorem calls_are_linear_of_two :
    (Cosim.callsOf (cosimRun .lp64 twoClients)).map TargetCall.presented <+:
        payloads .ignore
          (afterTwoClients.served.map fun c => (afterTwoClients.conns c).access.request) ∧
      Linear afterTwoClients.events
        ((afterTwoClients.served.zip
          ((Cosim.callsOf (cosimRun .lp64 twoClients)).map TargetCall.returned)).map
            fun w => (w.1, (afterTwoClients.conns w.1).access.told (replyOf w.2))) := by
  have possible : ((machine .lp64).run new twoClients).isSome = true := by decide +kernel
  have run : (machine .lp64).run new twoClients = some afterTwoClients := by
    obtain ⟨s, hs⟩ := Option.isSome_iff_exists.mp possible
    rw [afterTwoClients, hs]
    rfl
  exact calls_are_linear run

example : afterTwoClients.events =
    [.started 0, .started 1, .ended 0 (1, none), .ended 1 (1, some 0x12340007)] := by
  decide +kernel

end Net

end ScCosim.Driver
