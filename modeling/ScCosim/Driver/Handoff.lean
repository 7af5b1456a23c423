import ScCosim.Driver.SharedMemory

/-!
# The shared packet is handed to and fro

While no call follows a write that leaves, the packet is always in one party's hands: with
the client, on its way through `sharedsemA`, with the server, or on its way back through
`sharedsemB`. So no request is torn, and the client reads what the server has written for
its own request.
-/
namespace ScCosim.Driver

open Kernel Async Firewall

namespace Shm

variable {s t : Shm}

/-! ### What a step inside the interface leaves alone -/

/-- The steps of the two loops that are not at one of the server's accesses. -/
structure Beside (c d : Cosim) : Prop where
  accepted : d.record.accepted = c.record.accepted
  pulled : d.record.pulled = c.record.pulled
  replies : d.replies = c.replies
  heap : ∀ w ∈ c.record.pulled, d.heap w.1 = c.heap w.1
  accept : c.os = .accept → d.os = .accept
  reply : ∀ q, c.os = .reply q → d.os = .reply q
  serving : c.Serving → d.Serving

theorem beside_of_inside {c d : Cosim} {a : Cosim.Action} (reachable : Cosim.machine.Reachable c)
    (side : inside a = true) (hs : Cosim.machine.step c a = some d) : Beside c d := by
  have transition := Cosim.transition_of_step hs
  have other : ∀ r, a ≠ .accept r := by rintro r rfl; cases side
  have pull : a ≠ .nbPull := by rintro rfl; cases side
  have os : d.os = c.os ∨ (∃ p, c.os = .push p ∧ d.os = .waitForPut p) ∨
      ∃ p, c.os = .waitForPut p ∧ d.os = .nbPull p := by
    cases transition with
    | accept | nbPull | reply => cases side
    | push p os => exact Or.inr (Or.inl ⟨p, os, rfl⟩)
    | waitForPut p _ os => exact Or.inr (Or.inr ⟨p, os, rfl⟩)
    | nbGet sysc => left; unfold Cosim.nbGet; split <;> rfl
    | kernel | target | nbPut | loop | stop => exact Or.inl rfl
  refine ⟨Cosim.accepted_of_step transition other, Cosim.pulled_of_step transition pull,
    Cosim.replies_of_step reachable transition pull,
    fun w member =>
      Cosim.heap_of_written reachable transition (Cosim.written_of_pulled reachable member),
    ?_, ?_, ?_⟩
  · intro place
    rcases os with same | ⟨p, before, -⟩ | ⟨p, before, -⟩
    · exact same.trans place
    · simp [place] at before
    · simp [place] at before
  · intro q place
    rcases os with same | ⟨p, before, -⟩ | ⟨p, before, -⟩
    · exact same.trans place
    · simp [place] at before
    · simp [place] at before
  · rintro ⟨p, place⟩
    rcases os with same | ⟨p', -, after⟩ | ⟨p', -, after⟩
    · exact ⟨p, by rw [same]; exact place⟩
    · exact ⟨p', Or.inr (Or.inl after)⟩
    · exact ⟨p', Or.inr (Or.inr after)⟩

/-! ### Whose turn it is -/

/-- Requests and results so far: the calls `done` have returned with `answers`, and the
requests of `sent` have been accepted. -/
structure Books (s : Shm) (done sent : List Access) (answers : List (AsyncStatus × List Byte)) :
    Prop where
  stayed : ∀ a ∈ done, a.leaves = false
  accepted : s.cosim.record.accepted.map Prod.fst = sent.map Access.request
  length : answers.length = done.length
  returned : s.returned = List.zipWith (fun a r => a.returns (replyOf r)) done answers

theorem Books.same {done sent : List Access} {answers : List (AsyncStatus × List Byte)}
    (books : s.Books done sent answers) (cosim : t.cosim = s.cosim)
    (returned : t.returned = s.returned) : t.Books done sent answers :=
  ⟨books.stayed, by rw [cosim]; exact books.accepted, books.length, returned.trans books.returned⟩

/-- The packet shows a reply. -/
def Shows (p : SimpleAsyncPacket) (r : AsyncStatus × List Byte) : Prop :=
  p.status = r.1 ∧ (r.1 = .okResponse → p.data = dataWord r.2)

/-- Where a client is that has posted `sharedsemA`. -/
def after (a : Access) : ClientPc := if a.leaves then .ready else .waiting a

/-- The server reads these fields. -/
def Loads (content : Content) (server : ServerPc) : Prop :=
  server = .copying ∨ ∃ command address, server = .making content.2.2 command address ∧
    (∀ c, command = some c → c = content.1) ∧ ∀ x, address = some x → x = content.2.1

/-- The server writes the reply in `q` into the packet. -/
def WritesBack (s : Shm) (q : Ptr) : Prop :=
  s.server = .answering q ∨
    (s.server = .copyingBack q ∧ s.packet.status = (s.cosim.heap q).status) ∨
    (s.server = .posting (some q) ∧
      Shows s.packet ((s.cosim.heap q).status, (s.cosim.heap q).data))

/-- Who has the packet. -/
inductive Turn (s : Shm) : Prop
  | ready (place : (s.client, s.server, s.semA, s.semB) = (.ready, .waiting, 0, 0))
      (os : s.cosim.os = .accept) (books : s.Books s.calls s.calls s.cosim.replies)
  | storing (done : List Access) (a : Access) (rest : List Store) (calls : s.calls = done ++ [a])
      (place : (s.client, s.server, s.semA, s.semB) = (.storing a rest, .waiting, 0, 0))
      (os : s.cosim.os = .accept) (books : s.Books done done s.cosim.replies)
      (filled : (rest.foldl Store.perform s.packet).content = a.content)
  | posted (done : List Access) (a : Access) (calls : s.calls = done ++ [a])
      (place : (s.client, s.server, s.semA, s.semB) = (after a, .waiting, 1, 0))
      (os : s.cosim.os = .accept) (books : s.Books done done s.cosim.replies)
      (filled : s.packet.content = a.content)
  | taken (done : List Access) (a : Access) (calls : s.calls = done ++ [a])
      (place : (s.client, s.semA, s.semB) = (after a, 0, 0)) (server : Loads a.content s.server)
      (os : s.cosim.os = .accept) (books : s.Books done done s.cosim.replies)
      (filled : s.packet.content = a.content)
  | serving (done : List Access) (a : Access) (calls : s.calls = done ++ [a])
      (place : (s.client, s.server, s.semA, s.semB) = (after a, .serving, 0, 0))
      (os : s.cosim.Serving) (books : s.Books done (done ++ [a]) s.cosim.replies)
  | answering (done : List Access) (a : Access) (q : Ptr) (answers : List (AsyncStatus × List Byte))
      (calls : s.calls = done ++ [a]) (waits : a.leaves = false)
      (place : (s.client, s.semA, s.semB) = (.waiting a, 0, 0))
      (server : s.WritesBack q) (os : s.cosim.os = .reply q)
      (books : s.Books done (done ++ [a]) answers)
      (pulled : (q, (s.cosim.heap q).status) ∈ s.cosim.record.pulled)
      (replies : s.cosim.replies = answers ++ [((s.cosim.heap q).status, (s.cosim.heap q).data)])
  | replied (done : List Access) (a : Access) (r : AsyncStatus × List Byte)
      (answers : List (AsyncStatus × List Byte)) (calls : s.calls = done ++ [a])
      (waits : a.leaves = false)
      (place : (s.client, s.server, s.semA, s.semB) = (.waiting a, .waiting, 0, 1))
      (os : s.cosim.os = .accept) (books : s.Books done (done ++ [a]) answers)
      (replies : s.cosim.replies = answers ++ [r]) (shows : Shows s.packet r)
  | checking (done : List Access) (a : Access) (r : AsyncStatus × List Byte)
      (answers : List (AsyncStatus × List Byte)) (calls : s.calls = done ++ [a])
      (waits : a.leaves = false)
      (client : s.client = .checking a ∨ (s.client = .loading a ∧ s.packet.status = .okResponse))
      (place : (s.server, s.semA, s.semB) = (.waiting, 0, 0))
      (os : s.cosim.os = .accept) (books : s.Books done (done ++ [a]) answers)
      (replies : s.cosim.replies = answers ++ [r]) (shows : Shows s.packet r)

/-! ### Each step -/

theorem after_of_stays {a : Access} (stays : a.leaves = false) : after a = .waiting a := by
  simp [after, stays]

/-- The stores of a call, performed in order, fill in its packet. -/
theorem filled_stores (p : SimpleAsyncPacket) (id : Nat) (a : Access) :
    (a.stores id).foldl Store.perform p = a.packet id := rfl

theorem turn_new : Turn new := by
  exact .ready rfl rfl ⟨by simp [new], rfl, rfl, rfl⟩

theorem turn_call (h : s.Turn) (client : s.client = .ready) (a : Access)
    (stay : ∀ b ∈ s.calls, b.leaves = false) : (s.call a).Turn := by
  have never : ∀ done b, s.calls = done ++ [b] → after b ≠ .ready := by
    intro done b calls
    rw [after_of_stays (stay b (by simp [calls]))]
    exact ClientPc.noConfusion
  cases h with
  | ready place os books =>
    simp only [Prod.mk.injEq] at place
    refine .storing s.calls a (a.stores s.idCounter) rfl (by simp [call, place]) os (books.same rfl rfl) ?_
    rw [filled_stores]
    rfl
  | posted done b calls place | serving done b calls place | taken done b calls place =>
    simp only [client, Prod.mk.injEq] at place
    exact absurd place.1.symm (never done b calls)
  | checking _ _ _ _ _ _ place => simp [client] at place
  | storing _ _ _ _ place | answering _ _ _ _ _ _ place | replied _ _ _ _ _ _ place =>
    simp [client] at place

theorem turn_store (h : s.Turn) {a : Access} {w : Store} {rest : List Store}
    (client : s.client = .storing a (w :: rest)) : (s.store a w rest).Turn := by
  cases h with
  | storing done b rest' calls place os books filled =>
    simp only [client, Prod.mk.injEq, ClientPc.storing.injEq] at place
    obtain ⟨⟨rfl, rfl⟩, server, semA, semB⟩ := place
    exact .storing done a rest calls (by simp [store, server, semA, semB]) os
      (books.same rfl rfl) filled
  | posted done b _ place | serving done b _ place | taken done b _ place =>
    unfold after at place
    split at place <;> simp [client] at place
  | checking _ _ _ _ _ _ place => simp [client] at place
  | ready place | answering _ _ _ _ _ _ place | replied _ _ _ _ _ _ place => simp [client] at place

theorem turn_postA (h : s.Turn) {a : Access} (client : s.client = .storing a []) :
    (s.postA a).Turn := by
  cases h with
  | storing done b rest' calls place os books filled =>
    simp only [client, Prod.mk.injEq, ClientPc.storing.injEq] at place
    obtain ⟨⟨rfl, rfl⟩, server, semA, semB⟩ := place
    exact .posted done a calls (by simp [postA, after, server, semA, semB]) os
      (books.same rfl rfl) filled
  | posted done b _ place | serving done b _ place | taken done b _ place =>
    unfold after at place
    split at place <;> simp [client] at place
  | checking _ _ _ _ _ _ place => simp [client] at place
  | ready place | answering _ _ _ _ _ _ place | replied _ _ _ _ _ _ place => simp [client] at place

theorem turn_waitB (h : s.Turn) {a : Access} (client : s.client = .waiting a)
    (posted : s.semB ≠ 0) : Turn { s with semB := s.semB - 1, client := .checking a } := by
  cases h with
  | replied done b r answers calls waits place os books replies shows =>
    simp only [client, Prod.mk.injEq, ClientPc.waiting.injEq] at place
    obtain ⟨rfl, server, semA, semB⟩ := place
    exact .checking done a r answers calls waits (Or.inl rfl) (by simp [server, semA, semB]) os
      (books.same rfl rfl) replies shows
  | checking _ _ _ _ _ _ _ place => simp [posted] at place
  | ready place | storing _ _ _ _ place | posted _ _ _ place | taken _ _ _ place
  | serving _ _ _ place | answering _ _ _ _ _ _ place => simp [posted] at place

theorem returns_of_shows {p : SimpleAsyncPacket} {r : AsyncStatus × List Byte} (shows : Shows p r)
    (a : Access) : a.returns ⟨p.status, p.data⟩ = a.returns (replyOf r) := by
  obtain ⟨status, data⟩ := shows
  cases a with
  | write w => simp only [Access.returns, replyOf, status]
  | read address =>
    have value : Reply.value ⟨p.status, p.data⟩ = (replyOf r).value := by
      by_cases ok : r.1 = .okResponse
      · exact (if_neg (not_not.mpr (status.trans ok))).trans
          ((data ok).trans (if_neg (not_not.mpr ok)).symm)
      · have bad : p.status ≠ .okResponse := fun good => ok (status.symm.trans good)
        exact (if_pos bad).trans (if_pos ok).symm
    exact Prod.ext status (congrArg some value)

/-- The call returns what the packet shows. -/
theorem turn_finish (h : s.Turn) {a : Access} {r : Reply}
    (client : s.client = .checking a ∨ s.client = .loading a)
    (checked : s.client = .checking a → a.returns r = a.returns ⟨s.packet.status, s.packet.data⟩)
    (loaded : s.client = .loading a → r = ⟨.okResponse, s.packet.data⟩) : (s.finish a r).Turn := by
  cases h with
  | checking done b answer answers calls waits place' place os books replies shows =>
    simp only [Prod.mk.injEq] at place
    obtain ⟨server, semA, semB⟩ := place
    have result : b = a ∧ a.returns r = a.returns (replyOf answer) := by
      rw [← returns_of_shows shows]
      rcases place' with here | ⟨here, ok⟩
      · obtain rfl : b = a := by simpa [here] using client
        exact ⟨rfl, checked here⟩
      · obtain rfl : b = a := by simpa [here] using client
        exact ⟨rfl, by rw [loaded here, ok]⟩
    obtain ⟨rfl, result⟩ := result
    refine .ready (by simp [finish, server, semA, semB]) os ⟨?_, ?_, ?_, ?_⟩
    · intro c member
      rcases List.mem_append.mp (calls ▸ member) with old | new
      · exact books.stayed c old
      · rw [List.mem_singleton.mp new]
        exact waits
    · simpa [finish, calls] using books.accepted
    · simp [finish, calls, replies, books.length]
    · simp only [finish, calls, replies, books.returned, result]
      rw [List.zipWith_append (by simp [books.length])]
      rfl
  | posted done b _ place | serving done b _ place | taken done b _ place =>
    unfold after at place
    rcases client with client | client <;> split at place <;> simp [client] at place
  | ready place | storing _ _ _ _ place | answering _ _ _ _ _ _ place | replied _ _ _ _ _ _ place =>
    rcases client with client | client <;> simp [client] at place

theorem turn_statusOk (h : s.Turn) {a : Access} (client : s.client = .checking a)
    (ok : s.packet.status = .okResponse) : Turn { s with client := .loading a } := by
  cases h with
  | checking done b answer answers calls waits place' place os books replies shows =>
    obtain rfl : b = a := by simpa [client, eq_comm] using place'
    exact .checking done b answer answers calls waits (Or.inr ⟨rfl, ok⟩) place os
      (books.same rfl rfl) replies shows
  | posted done b _ place | serving done b _ place | taken done b _ place =>
    unfold after at place
    split at place <;> simp [client] at place
  | ready place | storing _ _ _ _ place | answering _ _ _ _ _ _ place | replied _ _ _ _ _ _ place =>
    simp [client] at place

theorem turn_waitA (h : s.Turn) (posted : s.semA ≠ 0) :
    Turn { s with semA := s.semA - 1, server := .copying } := by
  cases h with
  | posted done a calls place os books filled =>
    simp only [Prod.mk.injEq] at place
    obtain ⟨client, server, semA, semB⟩ := place
    exact .taken done a calls (by simp [client, semA, semB]) (Or.inl rfl) os
      (books.same rfl rfl) filled
  | ready place | storing _ _ _ _ place | taken _ _ _ place | serving _ _ _ place
  | answering _ _ _ _ _ _ place | replied _ _ _ _ _ _ place | checking _ _ _ _ _ _ _ place =>
    simp [posted] at place

/-- The server goes on reading the fields of the request. -/
theorem turn_load (h : s.Turn) {next : ServerPc}
    (before : s.server = .copying ∨ ∃ data c x, s.server = .making data c x)
    (reads : ∀ content, Loads content s.server → s.packet.content = content → Loads content next) :
    Turn { s with server := next } := by
  cases h with
  | taken done a calls place server os books filled =>
    exact .taken done a calls place (reads _ server filled) os
      (books.same rfl rfl) filled
  | answering done a q answers _ _ _ server =>
    rcases server with server | ⟨server, -⟩ | ⟨server, -⟩ <;> simp [server] at before
  | ready place | storing _ _ _ _ place | posted _ _ _ place | serving _ _ _ place
  | replied _ _ _ _ _ _ place | checking _ _ _ _ _ _ _ place =>
    rcases before with before | ⟨data, c, x, before⟩ <;> simp [before] at place

theorem turn_accept (h : s.Turn) {data : Word} {command : Byte} {address : BitVec 32} {c : Cosim}
    (server : s.server = .making data (some command) (some address))
    (reachable : Cosim.machine.Reachable s.cosim)
    (cosim : Cosim.machine.step s.cosim (.accept ⟨command, address, wordBytes data⟩) = some c) :
    Turn { s with cosim := c, server := .serving } := by
  have transition := Cosim.transition_of_step cosim
  have replies := Cosim.replies_of_step reachable transition (by simp)
  cases h with
  | taken done a calls place loads os books filled =>
    simp only [Prod.mk.injEq] at place
    obtain ⟨client, semA, semB⟩ := place
    have request : a.request = ⟨command, address, wordBytes data⟩ := by
      simp only [Loads, server, reduceCtorEq, ServerPc.making.injEq, false_or] at loads
      obtain ⟨_, _, ⟨rfl, rfl, rfl⟩, first, second⟩ := loads
      simp only [Access.request, requestOf, first _ rfl, second _ rfl]
    cases transition with
    | accept r os' =>
      refine .serving done a calls (by simp [client, semA, semB]) ⟨_, Or.inl rfl⟩ ?_
      refine ⟨books.stayed, ?_, ?_, ?_⟩
      · simp [Cosim.accept, Cosim.alloc, books.accepted, request]
      · rw [replies]
        exact books.length
      · rw [replies]
        exact books.returned
  | answering done a q answers _ _ _ writes =>
    rcases writes with writes | ⟨writes, -⟩ | ⟨writes, -⟩ <;> simp [server] at writes
  | ready place | storing _ _ _ _ place | posted _ _ _ place | serving _ _ _ place
  | replied _ _ _ _ _ _ place | checking _ _ _ _ _ _ _ place => simp [server] at place

theorem turn_nbPull (h : s.Turn) {c : Cosim} (server : s.server = .serving)
    (reachable : Cosim.machine.Reachable s.cosim)
    (cosim : Cosim.machine.step s.cosim .nbPull = some c) : (s.pulled c).Turn := by
  obtain ⟨q, os, heap, accepted, member, replies, r, last, stays⟩ :=
    Cosim.nbPull_step reachable cosim
  cases h with
  | serving done a calls place _ books =>
    simp only [Prod.mk.injEq] at place
    obtain ⟨client, -, semA, semB⟩ := place
    -- the request in hand is that of the call, so the call does not leave
    have request : r = a.request := by
      have whole := congrArg List.getLast? books.accepted
      rw [List.getLast?_map, last] at whole
      simpa using whole
    have waits : a.leaves = false := stays_of_request (request ▸ stays)
    refine .answering done a q s.cosim.replies calls waits ?_ (Or.inl ?_) os
      ⟨books.stayed, ?_, books.length, ?_⟩ ?_ ?_
    · simp [pulled, client, semA, semB, after_of_stays waits]
    · simp [pulled, os]
    · exact (congrArg (List.map Prod.fst) accepted).trans books.accepted
    · exact books.returned
    · simpa only [pulled, heap] using member
    · simpa only [pulled, heap] using replies
  | taken done a _ _ loads =>
    rcases loads with loads | ⟨_, _, loads, -⟩ <;> simp [server] at loads
  | answering done a q answers _ _ _ writes =>
    rcases writes with writes | ⟨writes, -⟩ | ⟨writes, -⟩ <;> simp [server] at writes
  | ready place | storing _ _ _ _ place | posted _ _ _ place
  | replied _ _ _ _ _ _ place | checking _ _ _ _ _ _ _ place => simp [server] at place

theorem turn_answer (h : s.Turn) {q : Ptr} (server : s.server = .answering q) :
    (s.answer q).Turn := by
  cases h with
  | answering done a q' answers calls waits place writes os books member replies =>
    obtain rfl : q = q' := by simpa [WritesBack, server] using writes
    refine .answering done a q answers calls waits place ?_ os
      (books.same rfl rfl) member replies
    by_cases ok : (s.cosim.heap q).status = .okResponse
    · exact Or.inr (Or.inl ⟨by simp [answer, ok], rfl⟩)
    · exact Or.inr (Or.inr ⟨by simp [answer, ok], rfl, fun good => absurd good ok⟩)
  | taken done a _ _ loads =>
    rcases loads with loads | ⟨_, _, loads, -⟩ <;> simp [server] at loads
  | ready place | storing _ _ _ _ place | posted _ _ _ place | serving _ _ _ place
  | replied _ _ _ _ _ _ place | checking _ _ _ _ _ _ _ place => simp [server] at place

theorem turn_copyBack (h : s.Turn) {q : Ptr} (server : s.server = .copyingBack q) :
    (s.copyBack q).Turn := by
  cases h with
  | answering done a q' answers calls waits place writes os books member replies =>
    obtain ⟨rfl, status⟩ : q = q' ∧ s.packet.status = (s.cosim.heap q').status := by
      simpa [WritesBack, server] using writes
    exact .answering done a q answers calls waits place (Or.inr (Or.inr ⟨rfl, status, fun _ => rfl⟩)) os
      (books.same rfl rfl) member replies
  | taken done a _ _ loads =>
    rcases loads with loads | ⟨_, _, loads, -⟩ <;> simp [server] at loads
  | ready place | storing _ _ _ _ place | posted _ _ _ place | serving _ _ _ place
  | replied _ _ _ _ _ _ place | checking _ _ _ _ _ _ _ place => simp [server] at place

theorem turn_postB (h : s.Turn) {q : Ptr} {c : Cosim} (server : s.server = .posting (some q))
    (reachable : Cosim.machine.Reachable s.cosim)
    (cosim : Cosim.machine.step s.cosim .reply = some c) : (s.postB c).Turn := by
  have transition := Cosim.transition_of_step cosim
  have same := Cosim.replies_of_step reachable transition (by simp)
  have accepted := Cosim.accepted_of_step transition (by simp)
  cases h with
  | answering done a q' answers calls waits place writes os books member replies =>
    simp only [Prod.mk.injEq] at place
    obtain ⟨client, semA, semB⟩ := place
    obtain ⟨rfl, shows⟩ : q = q' ∧
        Shows s.packet ((s.cosim.heap q').status, (s.cosim.heap q').data) := by
      simpa [WritesBack, server] using writes
    -- the server never leaves its loop
    have next : c.os = .accept := by
      have open' := Cosim.never_closed (reachable.step cosim)
      cases transition with
      | reply p os' =>
        simp only [Cosim.reply] at open' ⊢
        split at open'
        · exact absurd rfl open'
        · next stays => rw [if_neg stays]
    refine .replied done a _ answers calls waits ?_ next
      ⟨books.stayed, ?_, books.length, books.returned⟩
      (same.trans replies) shows
    · simp [postB, next, client, semA, semB]
    · exact (congrArg (List.map Prod.fst) accepted).trans books.accepted
  | taken done a _ _ loads =>
    rcases loads with loads | ⟨_, _, loads, -⟩ <;> simp [server] at loads
  | ready place | storing _ _ _ _ place | posted _ _ _ place | serving _ _ _ place
  | replied _ _ _ _ _ _ place | checking _ _ _ _ _ _ _ place => simp [server] at place

/-- `nb_pull` has never failed. -/
theorem Turn.not_missing (h : s.Turn) : s.server ≠ .missing ∧ s.server ≠ .posting none := by
  cases h with
  | answering _ _ _ _ _ _ _ writes =>
    rcases writes with writes | ⟨writes, -⟩ | ⟨writes, -⟩ <;> simp [writes]
  | taken _ _ _ _ loads =>
    rcases loads with loads | ⟨_, _, loads, -⟩ <;> simp [loads]
  | ready place | storing _ _ _ _ place | posted _ _ _ place | serving _ _ _ place
  | replied _ _ _ _ _ _ place | checking _ _ _ _ _ _ _ place =>
    simp only [Prod.mk.injEq] at place
    simp [place]

/-- The interface goes on beside the two parties. -/
theorem turn_beside (h : s.Turn) {c : Cosim} (beside : Beside s.cosim c) :
    Turn { s with cosim := c } := by
  have keep : ∀ {done sent answers}, s.Books done sent answers →
      Books { s with cosim := c } done sent answers := fun books =>
    ⟨books.stayed, (congrArg (List.map Prod.fst) beside.accepted).trans books.accepted, books.length,
      books.returned⟩
  cases h with
  | ready place os books =>
    exact .ready place (beside.accept os) (by simpa only [beside.replies] using keep books)
  | storing done a rest calls place os books filled =>
    exact .storing done a rest calls place (beside.accept os)
      (by simpa only [beside.replies] using keep books) filled
  | posted done a calls place os books filled =>
    exact .posted done a calls place (beside.accept os)
      (by simpa only [beside.replies] using keep books) filled
  | taken done a calls place server os books filled =>
    exact .taken done a calls place server (beside.accept os)
      (by simpa only [beside.replies] using keep books) filled
  | serving done a calls place os books =>
    exact .serving done a calls place (beside.serving os)
      (by simpa only [beside.replies] using keep books)
  | answering done a q answers calls waits place writes os books member replies =>
    have heap := beside.heap _ member
    refine .answering done a q answers calls waits place ?_ (beside.reply q os) (keep books) ?_ ?_
    · simpa only [WritesBack, heap] using writes
    · simpa only [beside.pulled, heap] using member
    · simpa only [beside.replies, heap] using replies
  | replied done a r answers calls waits place os books replies shows =>
    exact .replied done a r answers calls waits place (beside.accept os) (keep books)
      (beside.replies.trans replies) shows
  | checking done a r answers calls waits client place os books replies shows =>
    exact .checking done a r answers calls waits client place (beside.accept os) (keep books)
      (beside.replies.trans replies) shows

/-- No call has followed a write that leaves. -/
def LeavesLast (s : Shm) : Prop := ∀ a ∈ s.calls.dropLast, a.leaves = false

theorem turn_step {a : Action} (h : s.Turn) (reachable : Cosim.machine.Reachable s.cosim)
    (last : t.LeavesLast) (hs : Transition s a t) : t.Turn := by
  cases hs with
  | call a client =>
    refine turn_call h client a fun b member => last b ?_
    simpa [call] using member
  | store a w rest client => exact turn_store h client
  | postA a client => exact turn_postA h client
  | waitB a client posted => exact turn_waitB h client posted
  | checked a client plain =>
    exact turn_finish h (Or.inl client) (fun _ => plain) (by simp [client])
  | statusOk a client ok => exact turn_statusOk h client ok
  | loaded a client => exact turn_finish h (Or.inr client) (by simp [client]) (fun _ => rfl)
  | loadCommand data address server =>
    refine turn_load h (Or.inr ⟨_, _, _, server⟩) fun content loads filled => ?_
    simp only [Loads, server, reduceCtorEq, ServerPc.making.injEq, false_or] at loads ⊢
    obtain ⟨_, _, ⟨rfl, rfl, rfl⟩, -, second⟩ := loads
    refine ⟨_, _, ⟨rfl, rfl, rfl⟩, ?_, second⟩
    rintro c ⟨rfl⟩
    exact congrArg Prod.fst filled
  | loadAddress data command server =>
    refine turn_load h (Or.inr ⟨_, _, _, server⟩) fun content loads filled => ?_
    simp only [Loads, server, reduceCtorEq, ServerPc.making.injEq, false_or] at loads ⊢
    obtain ⟨_, _, ⟨rfl, rfl, rfl⟩, first, -⟩ := loads
    refine ⟨_, _, ⟨rfl, rfl, rfl⟩, first, ?_⟩
    rintro x ⟨rfl⟩
    exact congrArg (fun content => content.2.1) filled
  | waitA server posted => exact turn_waitA h posted
  | copy server =>
    refine turn_load h (Or.inl server) fun content loads filled => Or.inr ⟨none, none, ?_, ?_⟩
    · exact congrArg (fun w => ServerPc.making w none none) (congrArg (fun c => c.2.2) filled)
    · simp
  | accept data command address c server cosim => exact turn_accept h server reachable cosim
  | nbPull c server cosim => exact turn_nbPull h server reachable cosim
  | missing server => exact absurd server h.not_missing.1
  | answer q server => exact turn_answer h server
  | copyBack q server => exact turn_copyBack h server
  | postNothing server => exact absurd server h.not_missing.2
  | postB q c server cosim => exact turn_postB h server reachable cosim
  | loops a c side cosim => exact turn_beside h (beside_of_inside reachable side cosim)

/-- The calls made are never forgotten. -/
theorem leavesLast_of_step {a : Action} (hs : Transition s a t) (last : t.LeavesLast) :
    s.LeavesLast := by
  cases hs with
  | call a client =>
    intro b member
    exact last b (by simpa [call] using List.dropLast_subset _ member)
  | _ => exact last

theorem turn_reachable (h : machine.Reachable s) (last : s.LeavesLast) : s.Turn := by
  have both : Cosim.machine.Reachable s.cosim ∧ (s.LeavesLast → s.Turn) := by
    refine h.invariant (I := fun s => Cosim.machine.Reachable s.cosim ∧ (s.LeavesLast → s.Turn))
      ⟨Cosim.machine.reachable_init, fun _ => turn_new⟩ ?_
    rintro s a t ⟨reachable, turn⟩ hs
    have transition := transition_of_step hs
    refine ⟨reachable.run (observed_step transition), fun last => ?_⟩
    exact turn_step (turn (leavesLast_of_step transition last)) reachable last transition
  exact both.2 last

/-! ### What comes of it -/

/-- The client's next step is an access to the packet. -/
def clientInside (s : Shm) : Bool :=
  match s.client with
  | .storing _ (_ :: _) | .checking _ | .loading _ => true
  | _ => false

/-- The server's next step is an access to the packet. -/
def serverInside (s : Shm) : Bool :=
  match s.server with
  | .copying | .missing | .answering _ | .copyingBack _ => true
  | .making _ command address => command.isNone || address.isNone
  | _ => false

theorem Turn.exclusive (h : s.Turn) : ¬ (s.clientInside = true ∧ s.serverInside = true) := by
  rintro ⟨client, server⟩
  cases h with
  | ready place | storing _ _ _ _ place | posted _ _ _ place | serving _ _ _ place
  | replied _ _ _ _ _ _ place | checking _ _ _ _ _ _ _ place =>
    simp only [Prod.mk.injEq] at place
    simp [serverInside, place] at server
  | taken done a _ place =>
    simp only [Prod.mk.injEq] at place
    unfold clientInside at client
    rw [place.1, after] at client
    split at client <;> split at * <;> simp_all
  | answering _ _ _ _ _ _ place =>
    simp only [Prod.mk.injEq] at place
    simp [clientInside, place] at client

/-- The books are about first parts of the calls and of the replies; one call at most is on
its way. -/
theorem Turn.account (h : s.Turn) : ∃ done sent answers, s.Books done sent answers ∧
    done <+: sent ∧ sent <+: s.calls ∧ answers <+: s.cosim.replies ∧
    s.calls.length ≤ done.length + 1 := by
  cases h with
  | ready _ _ books =>
    exact ⟨_, _, _, books, List.prefix_rfl, List.prefix_rfl, List.prefix_rfl, Nat.le_succ _⟩
  | storing done a _ calls _ _ books | posted done a calls _ _ books | taken done a calls _ _ _ books =>
    rw [calls]
    exact ⟨_, _, _, books, List.prefix_rfl, List.prefix_append _ _, List.prefix_rfl, by simp⟩
  | serving done a calls _ _ books =>
    rw [calls]
    exact ⟨_, _, _, books, List.prefix_append _ _, List.prefix_rfl, List.prefix_rfl, by simp⟩
  | answering done a _ answers calls _ _ _ _ books _ replies
  | replied done a _ answers calls _ _ _ books replies
  | checking done a _ answers calls _ _ _ _ books replies =>
    rw [calls, replies]
    exact ⟨_, _, _, books, List.prefix_append _ _, List.prefix_rfl, List.prefix_append _ _, by simp⟩

/-- Whatever the order of the steps, while no call has followed a write that leaves: the two
parties are never at the packet together, the target has been called with the requests of the
calls in their order, and each call has returned what the target has left for it. -/
theorem handed_over {as : List Action} (hr : machine.run new as = some s) (last : s.LeavesLast) :
    ¬ (s.clientInside = true ∧ s.serverInside = true) ∧
      (Cosim.callsOf (cosimRun as)).map TargetCall.presented <+:
        payloads .ignore (s.calls.map Access.request) ∧
      s.calls.length ≤ s.returned.length + 1 ∧
      s.returned <+: List.zipWith (fun a r => a.returns (replyOf r)) s.calls
        ((Cosim.callsOf (cosimRun as)).map TargetCall.returned) := by
  have turn := turn_reachable ⟨as, hr⟩ last
  have presented := Cosim.presented_accepted (cosimRun_run hr)
  have replies := Cosim.replies_returned (cosimRun_run hr)
  obtain ⟨done, sent, answers, books, before, whole, found, outstanding⟩ := turn.account
  obtain ⟨later, calls⟩ := before.trans whole
  obtain ⟨unsent, calls'⟩ := whole
  refine ⟨turn.exclusive, ?_, ?_, ?_⟩
  · refine presented.trans ?_
    rw [books.accepted, ← calls', List.map_append, payloads_append]
    exact List.prefix_append _ _
  · rw [books.returned, List.length_zipWith, books.length, Nat.min_self]
    exact outstanding
  · obtain ⟨rest, split⟩ := found.trans replies
    rw [books.returned, ← split, ← calls, List.zipWith_append books.length.symm]
    exact List.prefix_append _ _

/-- A read of the word at 64, with the address read before the command. -/
def oneRead : List Action :=
  [.loops .loop, .call (.read 0x40)] ++ List.replicate 7 .client ++ [.server, .server,
    .loadAddress, .loadCommand, .server, .loops .push, .loops .kernel, .loops .kernel, .loops .kernel,
    .loops .kernel, .loops .nbGet, .loops (.target ⟨.ok, [1, 2, 3, 4]⟩), .loops .nbPut,
    .loops .loop, .loops .waitForPut, .server, .server, .server, .server, .client, .client, .client]

def afterOneRead : Shm := (machine.run new oneRead).getD new

theorem handed_over_of_read :
    ¬ (afterOneRead.clientInside = true ∧ afterOneRead.serverInside = true) ∧
      (Cosim.callsOf (cosimRun oneRead)).map TargetCall.presented <+:
        payloads .ignore (afterOneRead.calls.map Access.request) ∧
      afterOneRead.calls.length ≤ afterOneRead.returned.length + 1 ∧
      afterOneRead.returned <+: List.zipWith (fun a r => a.returns (replyOf r)) afterOneRead.calls
        ((Cosim.callsOf (cosimRun oneRead)).map TargetCall.returned) :=
  handed_over (show machine.run new oneRead = some afterOneRead from rfl)
    (by unfold LeavesLast; rw [show afterOneRead.calls = [.read 0x40] from rfl]; simp)

example : afterOneRead.returned = [(.okResponse, some 0x04030201)] := rfl

/-- After a write that leaves the condition is needed: the next call takes the packet while
the server is reading it, and a request is accepted that nobody has made. -/
theorem torn_after_leaving : ∃ as s, machine.run new as = some s ∧
    ∃ r ∈ s.cosim.record.accepted, ∀ a ∈ s.calls, a.request ≠ r.1 := by
  let as : List Action := [.call (.write (0x80000000, 0x40))] ++ List.replicate 7 .client ++
    [.server, .server, .call (.read 0x44), .client, .client, .loadCommand, .loadAddress, .server]
  refine ⟨as, (machine.run new as).getD new, rfl, (⟨AsyncCommand.read.code, 0x40, wordBytes 0x80000000⟩, 0),
    by decide, by decide⟩

end Shm

end ScCosim.Driver
